import Retrofit.Proofs.Body.Order
import Retrofit.Proofs.Body.Reloading

/-!
# Frames of spliced code

However a loaded body was spliced, its stack map frames follow their instructions. The distances that
are written lead to where the frames' instructions have landed, because these have kept their order.
Of a frame itself nothing changes but the offsets at which uninitialized objects were made, and the
shape where the new distance needs another one.
-/

namespace Retrofit

namespace Frame

/-- What a frame says about the locals and the stack of the frame before it. The compact shapes are
of one kind with their extended ones. -/
inductive Kind where
  | same | sameItem
  /-- So many of the last locals are gone. -/
  | chop (count : Nat)
  | append | full
  deriving DecidableEq, Repr

def kind : Frame → Kind
  | same _ | sameExtended _ => .same
  | sameItem _ _ | sameItemExtended _ _ => .sameItem
  | chop less _ => .chop (less + 1)
  | append _ _ => .append
  | full _ _ _ => .full

/-- The type byte is one of those that stand for the shape of the frame, and with a compact shape the
one for its distance. -/
def MarkedBy (type : UInt8) : Frame → Prop
  | same delta => type.toNat = delta
  | sameItem delta _ => type.toNat = 64 + delta
  | sameItemExtended _ _ => type.toNat = 247
  | chop less _ => type.toNat = 250 - less
  | sameExtended _ => type.toNat = 251
  | append _ locals => type.toNat = 251 + locals.length ∧ 252 ≤ type.toNat ∧ type.toNat ≤ 254
  | full _ _ _ => type.toNat = 255

theorem markedBy_typeByte {f : Frame} (h : f.Fits) : f.MarkedBy f.typeByte := by
  cases f with
  | same delta => exact toNat_typeByte (by omega)
  | sameItem delta _ => exact toNat_typeByte (by omega)
  | chop less _ => exact toNat_typeByte (by omega)
  | append delta locals =>
      obtain ⟨hpos, hle⟩ := h
      have hbyte : (append delta locals).typeByte.toNat = 251 + locals.length :=
        toNat_typeByte (by omega)
      exact ⟨hbyte, by omega, by omega⟩
  | _ => rfl

@[simp] theorem kind_withDelta (f : Frame) (delta : UInt16) : (f.withDelta delta).kind = f.kind := by
  cases f with
  | chop | append | full => rfl
  | _ => rw [withDelta]; split <;> rfl

@[simp] theorem locals_withDelta (f : Frame) (delta : UInt16) :
    (f.withDelta delta).locals = f.locals := by
  cases f with
  | chop | append | full => rfl
  | _ => rw [withDelta]; split <;> rfl

@[simp] theorem stack_withDelta (f : Frame) (delta : UInt16) :
    (f.withDelta delta).stack = f.stack := by
  cases f with
  | chop | append | full => rfl
  | _ => rw [withDelta]; split <;> rfl

/-- A frame gets the distance it is given, whichever shape that takes. -/
@[simp] theorem delta_withDelta (f : Frame) (d : UInt16) : (f.withDelta d).delta = d := by
  cases f with
  | chop | append | full => rfl
  | _ =>
      rw [withDelta]
      split
      · exact UInt16.ofNat_toNat
      · rfl

/-! ### Positions and distances -/

/-- The positions of frames of which the first lies its distance behind `next`. -/
def positionsFrom (next : Nat) : List Frame → List Nat
  | [] => []
  | f :: fs => (next + f.delta.toNat) :: positionsFrom (next + f.delta.toNat + 1) fs

/-- The distances to the given positions, the first one from `next`. -/
def deltasFrom (next : Nat) : List Nat → List Nat
  | [] => []
  | p :: ps => (p - next) :: deltasFrom (p + 1) ps

/-- The first frame lies at its distance, and each other one its distance behind the place after the
one before. -/
theorem positions_eq (fs : List Frame) : positions fs = positionsFrom 0 fs := by
  have hfrom : ∀ next, ((fs.zip (fs.scanl (fun next f => next + f.delta.toNat + 1) next)).map
      fun x => x.2 + x.1.delta.toNat) = positionsFrom next fs := by
    induction fs with
    | nil => intro next; rfl
    | cons f fs ih =>
        intro next
        rw [List.scanl_cons, List.zip_cons_cons, List.map_cons, ih, positionsFrom]
  exact hfrom 0

theorem deltas_eq (ps : List Nat) : deltas ps = deltasFrom 0 ps := by
  have hfrom : ∀ next, ((ps.zip (next :: ps.map (· + 1))).map fun x => x.1 - x.2) =
      deltasFrom next ps := by
    induction ps with
    | nil => intro next; rfl
    | cons p ps ih =>
        intro next
        rw [List.map_cons, List.zip_cons_cons, List.map_cons, ih, deltasFrom]
  exact hfrom 0

theorem le_of_mem_positionsFrom {next p : Nat} {fs : List Frame} (h : p ∈ positionsFrom next fs) :
    next ≤ p := by
  induction fs generalizing next with
  | nil => cases h
  | cons f fs ih =>
      rw [positionsFrom, List.mem_cons] at h
      obtain rfl | h := h
      · exact Nat.le_add_right _ _
      · have hle := ih h
        omega

theorem positionsFrom_increasing (next : Nat) (fs : List Frame) :
    (positionsFrom next fs).Pairwise (· < ·) := by
  induction fs generalizing next with
  | nil => exact .nil
  | cons f fs ih => exact .cons (fun p hp => le_of_mem_positionsFrom hp) (ih _)

/-- Frames that are given the distances to increasing positions lie there. -/
theorem positionsFrom_withDelta {next : Nat} {moved : List (Frame × Nat)}
    (hincreasing : (moved.map Prod.snd).Pairwise (· < ·))
    (hrange : ∀ p ∈ moved.map Prod.snd, next ≤ p ∧ p ≤ 65535) :
    positionsFrom next ((moved.zip (deltasFrom next (moved.map Prod.snd))).map
      fun x => x.1.1.withDelta (UInt16.ofNat x.2)) = moved.map Prod.snd := by
  induction moved generalizing next with
  | nil => rfl
  | cons m moved ih =>
      obtain ⟨f, p⟩ := m
      rw [List.map_cons, List.pairwise_cons] at hincreasing
      rw [List.map_cons, List.forall_mem_cons] at hrange
      obtain ⟨hlt, hincreasing⟩ := hincreasing
      obtain ⟨⟨hle, hlast⟩, hrange⟩ := hrange
      dsimp only at hlt hle hlast
      have hdelta : (UInt16.ofNat (p - next)).toNat = p - next :=
        UInt16.toNat_ofNat_of_lt' (by show p - next < 65536; omega)
      have hp : next + (p - next) = p := Nat.add_sub_cancel' hle
      rw [List.map_cons, deltasFrom, List.zip_cons_cons, List.map_cons, positionsFrom]
      dsimp only
      rw [delta_withDelta, hdelta, hp, ih hincreasing]
      exact fun q hq => ⟨hlt q hq, (hrange q hq).2⟩

end Frame

namespace Body

variable {b : Body}

/-- The type `t'` is the type `t` in the laid out body: an uninitialized object names the place where
the instruction that made it has landed, and all else is the same. -/
inductive TypeFollows (b : Body) : VerificationType → VerificationType → Prop
  | same {t : VerificationType} (h : ∀ offset, t ≠ .uninitialized offset) : TypeFollows b t t
  | uninitialized {offset offset' : UInt16} (h : b.Lands offset.toNat offset'.toNat) :
      TypeFollows b (.uninitialized offset) (.uninitialized offset')

/-- The frame `f'` says in the laid out body what `f` says in the loaded one, and is written with the
right type byte. -/
structure FrameFollows (b : Body) (f f' : Frame) : Prop where
  kind_eq : f'.kind = f.kind
  locals : List.Forall₂ b.TypeFollows f.locals f'.locals
  stack : List.Forall₂ b.TypeFollows f.stack f'.stack
  marked : f'.MarkedBy f'.typeByte

/-- The frames are followed one by one, and each lies where the instruction at the position of the
loaded one has landed. -/
structure FramesFollow (b : Body) (frames frames' : List Frame) : Prop where
  each : List.Forall₂ b.FrameFollows frames frames'
  lands : List.Forall₂ b.Lands (Frame.positions frames) (Frame.positions frames')

/-- The nested attribute `a'` of the laid out body holds the frames of `a`. Reading it back gives
these frames and leaves nothing over. -/
def FrameTableFollows (b : Body) (a a' : Attribute) : Prop :=
  a'.name = a.name ∧ ∃ frames frames', (Reader.counted Frame.read).run a.info = .ok frames ∧
    (Reader.counted Frame.read).run a'.info = .ok frames' ∧
    a'.info = countedBytes Frame.bytes frames' ∧ b.FramesFollow frames frames'

/-- Where increasing offsets have landed. -/
theorem Ordered.pairwise_of_lands (h : b.Ordered) {os as : List Nat}
    (hlands : List.Forall₂ b.Lands os as) (hos : os.Pairwise (· < ·)) : as.Pairwise (· < ·) := by
  induction hlands with
  | nil => exact .nil
  | @cons o a os as hland hlands ih =>
      obtain ⟨hlt, hos⟩ := List.pairwise_cons.mp hos
      refine .cons (fun a' ha' => ?_) (ih hos)
      obtain ⟨o', ho', hland'⟩ := exists_of_forall₂ hlands.flip ha'
      exact (h.lands_lt_iff hland hland').mpr (hlt o' ho')

/-- Frames are moved one by one, with their types and to where their positions land, and are then given
new distances. -/
theorem exists_moved_of_moveFrames (hb : b.Anchored) {frames frames' : List Frame}
    (h : moveFrames (OffsetMap.ofPairs b.offsetPairs).get? frames = .ok frames') :
    ∃ moved : List (Frame × Nat),
      frames' = (moved.zip (Frame.deltas (moved.map Prod.snd))).map
        (fun x => x.1.1.withDelta (UInt16.ofNat x.2)) ∧
      List.Forall₂ b.Lands (Frame.positions frames) (moved.map Prod.snd) ∧
      List.Forall₂ (fun f m => f.mapTypes (moveType (OffsetMap.ofPairs b.offsetPairs).get?) = .ok m.1)
        frames moved := by
  obtain ⟨moved, hmoved, h⟩ := bind_eq_ok.mp h
  cases h
  replace hmoved : List.Forall₂ (fun x (m : Frame × Nat) => b.Lands x.2 m.2 ∧
      x.1.mapTypes (moveType (OffsetMap.ofPairs b.offsetPairs).get?) = .ok m.1)
      (frames.zip (Frame.positions frames)) moved := by
    refine (mapM_eq_ok.mp hmoved).imp ?_
    rintro ⟨f, position⟩ m hm
    obtain ⟨new, hnew, hm⟩ := bind_eq_ok.mp hm
    obtain ⟨f', hf', rfl⟩ := map_eq_ok.mp hm
    exact ⟨hb.get?_iff.mp (moveOffset_eq_ok hnew), hf'⟩
  have hcount : (Frame.positions frames).length = frames.length := Frame.length_positions frames
  have hfst := List.map_fst_zip (Nat.le_of_eq hcount.symm)
  have hsnd := List.map_snd_zip (Nat.le_of_eq hcount)
  refine ⟨moved, rfl, ?_, ?_⟩
  · rw [← hsnd, List.forall₂_map_left_iff, List.forall₂_map_right_iff]
    exact hmoved.imp fun _ _ h => h.1
  · conv => lhs; rw [← hfst]
    rw [List.forall₂_map_left_iff]
    exact hmoved.imp fun _ _ h => h.2

section

variable (hb : b.Anchored) (hlen : b.length ≤ 65535)

include hb hlen

theorem typeFollows_of_moveType {t t' : VerificationType}
    (h : moveType (OffsetMap.ofPairs b.offsetPairs).get? t = .ok t') : b.TypeFollows t t' := by
  cases t with
  | uninitialized offset =>
      obtain ⟨offset', hoffset, rfl⟩ := map_eq_ok.mp h
      exact .uninitialized (lands_of_moveOffset16 hb hlen hoffset)
  | _ =>
      cases h
      exact .same (by simp)

theorem follows_of_mapTypes {f f' : Frame}
    (h : f.mapTypes (moveType (OffsetMap.ofPairs b.offsetPairs).get?) = .ok f') :
    f'.kind = f.kind ∧ List.Forall₂ b.TypeFollows f.locals f'.locals ∧
      List.Forall₂ b.TypeFollows f.stack f'.stack := by
  have htype : ∀ t t', moveType (OffsetMap.ofPairs b.offsetPairs).get? t = .ok t' →
      b.TypeFollows t t' := fun _ _ => typeFollows_of_moveType hb hlen
  cases f with
  | sameItem delta item =>
      obtain ⟨item', hitem, rfl⟩ := map_eq_ok.mp h
      exact ⟨rfl, .nil, .cons (htype _ _ hitem) .nil⟩
  | sameItemExtended delta item =>
      obtain ⟨item', hitem, rfl⟩ := map_eq_ok.mp h
      exact ⟨rfl, .nil, .cons (htype _ _ hitem) .nil⟩
  | append delta locals =>
      obtain ⟨locals', hlocals, rfl⟩ := map_eq_ok.mp h
      exact ⟨rfl, (mapM_eq_ok.mp hlocals).imp htype, .nil⟩
  | full delta locals stack =>
      obtain ⟨locals', hlocals, h⟩ := bind_eq_ok.mp h
      obtain ⟨stack', hstack, rfl⟩ := map_eq_ok.mp h
      exact ⟨rfl, (mapM_eq_ok.mp hlocals).imp htype, (mapM_eq_ok.mp hstack).imp htype⟩
  | _ =>
      cases h
      exact ⟨rfl, .nil, .nil⟩

theorem framesFollow_of_moveFrames (horder : b.Ordered)
    {frames frames' : List Frame} (hfits : ∀ f ∈ frames, f.Fits)
    (h : moveFrames (OffsetMap.ofPairs b.offsetPairs).get? frames = .ok frames') :
    b.FramesFollow frames frames' := by
  obtain ⟨moved, rfl, hlands, hmoved⟩ := exists_moved_of_moveFrames hb h
  have htypes := (List.forall₂_and_left _ _).mpr ⟨hfits, hmoved⟩
  have hdeltas : List.Forall₂ (fun (m : Frame × Nat) f => ∃ delta, f = m.1.withDelta delta) moved
      ((moved.zip (Frame.deltas (moved.map Prod.snd))).map
        fun x => x.1.1.withDelta (UInt16.ofNat x.2)) := by
    apply forall₂_map_zip
    · intro m delta
      exact ⟨_, rfl⟩
    · apply Nat.le_of_eq
      rw [Frame.length_deltas, List.length_map]
  constructor
  · refine forall₂_trans ?_ htypes hdeltas
    rintro f ⟨f', new⟩ _ ⟨hfits, hf⟩ ⟨delta, rfl⟩
    obtain ⟨hkind, hlocals, hstack⟩ := follows_of_mapTypes hb hlen hf
    have hfits' := Frame.fits_withDelta (Frame.fits_of_mapTypes hf hfits) delta
    refine ⟨?_, ?_, ?_, Frame.markedBy_typeByte hfits'⟩
    · rw [Frame.kind_withDelta]
      exact hkind
    · rw [Frame.locals_withDelta]
      exact hlocals
    · rw [Frame.stack_withDelta]
      exact hstack
  · rw [Frame.positions_eq frames] at hlands ⊢
    have hincreasing := horder.pairwise_of_lands hlands (Frame.positionsFrom_increasing 0 frames)
    have hrange : ∀ p ∈ moved.map Prod.snd, 0 ≤ p ∧ p ≤ 65535 := by
      intro p hp
      obtain ⟨old, -, hland⟩ := exists_of_forall₂ hlands.flip hp
      exact ⟨Nat.zero_le p, Nat.le_trans hland.le_length hlen⟩
    have hplaces := Frame.positionsFrom_withDelta hincreasing hrange
    rw [← Frame.deltas_eq, ← Frame.positions_eq] at hplaces
    rw [← hplaces] at hlands
    exact hlands

/-- A nested attribute under the name of frames, taken apart and moved. -/
theorem frameTableFollows_of_move {sources : List Nat} (horder : b.InOrder sources) {pool : Pool}
    {moved : Bool} {a : Attribute} {t : NamedTable} {o : Option NamedTable}
    (hname : pool.text? a.name = some "StackMapTable") (hload : NamedTable.decode pool a = .ok t)
    (hmove : moveNamedTable (OffsetMap.ofPairs b.offsetPairs).get? moved t = .ok o) :
    ∃ t', o = some t' ∧ b.FrameTableFollows a t'.toAttribute := by
  obtain ⟨table, htable, rfl⟩ := map_eq_ok.mp hload
  rw [hname] at htable
  obtain ⟨-, hfits, -⟩ := CodeTable.of_decode htable
  obtain ⟨frames, hrun, rfl⟩ := map_eq_ok.mp htable
  obtain ⟨o', ho', rfl⟩ := map_eq_ok.mp hmove
  obtain ⟨frames', hframes, h⟩ := map_eq_ok.mp ho'
  cases h
  have hmoved := Frame.moved_of_moveFrames hframes
  have hfits' := Frame.fits_of_moved hmoved hfits.2
  have hcount : frames'.length < 65536 := by
    rw [← hmoved.length_eq]
    exact hfits.1
  have hback := Reader.takes_counted (fun f hf => Frame.takes (hfits' f hf)) hcount
  exact ⟨_, rfl, rfl, frames, frames', hrun, hback.run, rfl,
    framesFollow_of_moveFrames hb hlen horder.ordered hfits.2 hframes⟩

end

theorem name_of_move {map : Nat → Option Nat} {moved : Bool} {pool : Pool} {a : Attribute}
    {t t' : NamedTable} (hload : NamedTable.decode pool a = .ok t)
    (hmove : moveNamedTable map moved t = .ok (some t')) : t'.name = a.name := by
  obtain ⟨table, -, rfl⟩ := map_eq_ok.mp hload
  obtain ⟨o, -, ho⟩ := map_eq_ok.mp hmove
  obtain ⟨table', -, rfl⟩ := Option.map_eq_some_iff.mp ho
  rfl

/-- The nested attributes under some of the names, and what has become of them. -/
theorem forall₂_filter_of_move (test : UInt16 → Bool) {Follows : Attribute → Attribute → Prop}
    {as : List Attribute} {os : List (Option NamedTable)}
    (h : List.Forall₂ (fun a o => (∀ t, o = some t → t.name = a.name) ∧
      (test a.name = true → ∃ t, o = some t ∧ Follows a t.toAttribute)) as os) :
    List.Forall₂ Follows (as.filter fun a => test a.name)
      (((os.filterMap id).map NamedTable.toAttribute).filter fun a => test a.name) := by
  rw [List.filter_map, List.forall₂_map_right_iff]
  apply forall₂_filter_filterMap
  exact h.imp fun a o ho => ⟨fun t ht => congrArg test (ho.1 t ht), ho.2⟩

/-- Once a spliced body is laid out, each of its nested attributes that holds frames has a successor,
and these follow one by one. -/
theorem encode_frames {pool : Pool} {code c : CodeAttribute} {loaded b : Body}
    (hload : Body.decode pool code = .ok loaded) (hsplices : Spliced (fun _ => True) loaded b)
    (henc : b.encode = .ok c) :
    b.EmittedAs code.code.length c.code ∧
      List.Forall₂ b.FrameTableFollows
        (code.attributes.filter fun a => pool.text? a.name == some "StackMapTable")
        (c.attributes.filter fun a => pool.text? a.name == some "StackMapTable") := by
  obtain ⟨sources, hsources⟩ := hsplices.exists_sources hload
  have horder := hsources.inOrder hload
  have hb := hsplices.anchored (anchored_of_decode hload)
  have hemits := hsplices.emits hload henc
  obtain ⟨hlen, _, _, os, -, -, hos, rfl⟩ := encode_eq_ok_iff.mp henc
  obtain ⟨js, tables, -, htables, rfl⟩ := decode_eq_ok_iff.mp hload
  rw [show b.tables = tables from congrArg Body.tables hsplices.eq] at hos
  refine ⟨hemits, ?_⟩
  apply forall₂_filter_of_move fun name => pool.text? name == some "StackMapTable"
  refine forall₂_trans ?_ (mapM_eq_ok.mp htables) (mapM_eq_ok.mp hos)
  intro a t o ha ho
  refine ⟨fun t' ht' => name_of_move ha (by rw [ho, ht']), fun htest => ?_⟩
  exact frameTableFollows_of_move hb hlen horder (eq_of_beq htest) ha ho

/-- A frame with an object that is not initialized yet, and one close behind it in the shape for far
ones. -/
def framed : CodeAttribute :=
  ⟨1, 0, [0x00, 0xbb, 0, 2, 0x00, 0x57, 0xb1], [], [⟨1, [0, 2, 68, 8, 0, 1, 251, 0, 1]⟩]⟩

def framedPool : Pool := ⟨3, #[.utf8 (bytesOfText "StackMapTable"), .classInfo 1]⟩

def framedBody : Body where
  maxStack := 1
  maxLocals := 0
  scratchBase := 0
  nodes := [⟨some 0, .nop⟩, ⟨some 1, .new 2⟩,
    ⟨some 4, .nop⟩, ⟨some 5, .pop⟩, ⟨some 6, .vreturn⟩]
  loadedLength := 7
  guards := []
  tables := [⟨1, .frames [.sameItem 4 (.uninitialized 1), .sameExtended 1]⟩]

/-- The first `Nop` replaced by two, and the other one by an increment. -/
def framedSpliced : Body :=
  (framedBody.splice 0 [.nop, .nop]).splice 3 [.iinc 0 1]

def framedEncoded : CodeAttribute :=
  ⟨1, 0, [0x00, 0x00, 0xbb, 0, 2, 0x84, 0, 1, 0x57, 0xb1], [], [⟨1, [0, 2, 69, 8, 0, 2, 3]⟩]⟩

theorem encode_frames_framed :
    Body.decode framedPool framed = .ok framedBody ∧
      Spliced (fun _ => True) framedBody framedSpliced ∧
      framedSpliced.encode = .ok framedEncoded ∧
      List.Forall₂ framedSpliced.FrameTableFollows framed.attributes framedEncoded.attributes := by
  have hframes : (Reader.counted Frame.read).run [0, 2, 68, 8, 0, 1, 251, 0, 1] =
      .ok [.sameItem 4 (.uninitialized 1), .sameExtended 1] := by cbv
  have htable : NamedTable.decode framedPool ⟨1, [0, 2, 68, 8, 0, 1, 251, 0, 1]⟩ =
      .ok ⟨1, .frames [.sameItem 4 (.uninitialized 1), .sameExtended 1]⟩ := by
    have hname : framedPool.text? 1 = some "StackMapTable" := textOfBytes?_bytesOfText _
    rw [NamedTable.decode, hname]
    exact map_eq_ok.mpr ⟨_, map_eq_ok.mpr ⟨_, hframes, rfl⟩, rfl⟩
  have hcode : Code.decode framed.code = .ok [(0, .nop), (1, .new 2),
      (4, .nop), (5, .pop), (6, .vreturn)] := by cbv
  have hload : Body.decode framedPool framed = .ok framedBody :=
    bind_eq_ok.mpr ⟨_, hcode, bind_eq_ok.mpr ⟨_, mapM_eq_ok.mpr (.cons htable .nil), rfl⟩⟩
  have hsplices : Spliced (fun _ => True) framedBody framedSpliced :=
    .tail (.single ⟨0, _, _, by decide, fun _ _ => trivial, rfl⟩)
      ⟨3, _, _, by decide, fun _ _ => trivial, rfl⟩
  have henc : framedSpliced.encode = .ok framedEncoded := by cbv
  exact ⟨hload, hsplices, henc, (encode_frames hload hsplices henc).2⟩

end Body

end Retrofit
