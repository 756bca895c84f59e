import Retrofit.Proofs.Body.Obstruction
import Retrofit.Proofs.CodeArray.RoundTrip

/-!
# Bodies that were not touched

A body that is laid out as it was loaded gives the loaded attribute again, if all that refers to an
offset refers to the start of an instruction or to the end of the code. What has no meaning is not
kept: padding becomes zero, bytes behind the entries of a table are dropped, and frames take the
compact shape where there is one.
-/

namespace Retrofit

/-! ### Compact frames -/

namespace Frame

/-- The frame in the compact shape where there is one. -/
def compact (f : Frame) : Frame := f.withDelta f.delta

/-- Whether the frame has a shape that there is a compact one for. -/
def isExtended : Frame → Bool
  | sameItemExtended _ _ | sameExtended _ => true
  | _ => false

/-- The frames say the same, and the second one is compact if its distance is small enough. -/
structure SameAs (f f' : Frame) : Prop where
  delta_eq : f'.delta = f.delta
  kind_eq : f'.kind = f.kind
  locals_eq : f'.locals = f.locals
  stack_eq : f'.stack = f.stack
  compact : f.delta.toNat ≤ 63 → f'.isExtended = false

theorem isExtended_withDelta (f : Frame) {delta : UInt16} (h : delta.toNat ≤ 63) :
    (f.withDelta delta).isExtended = false := by
  have hlt : delta.toNat < 64 := by omega
  cases f with
  | chop | append | full => rfl
  | _ => rw [withDelta, dif_pos hlt]; rfl

theorem sameAs_compact (f : Frame) : f.SameAs f.compact :=
  ⟨f.delta_withDelta _, f.kind_withDelta _, f.locals_withDelta _, f.stack_withDelta _,
    f.isExtended_withDelta⟩

theorem positions_map_compact (fs : List Frame) : positions (fs.map compact) = positions fs := by
  have hfrom : ∀ next, positionsFrom next (fs.map compact) = positionsFrom next fs := by
    induction fs with
    | nil => exact fun _ => rfl
    | cons f fs ih =>
        intro next
        rw [List.map_cons, positionsFrom, positionsFrom, (sameAs_compact f).delta_eq, ih]
  rw [positions_eq, positions_eq, hfrom]

/-- The distances to the positions of frames are those of the frames. -/
theorem deltas_positions (fs : List Frame) :
    deltas (positions fs) = fs.map fun f => f.delta.toNat := by
  have hfrom : ∀ next, deltasFrom next (positionsFrom next fs) = fs.map fun f => f.delta.toNat := by
    induction fs with
    | nil => exact fun _ => rfl
    | cons f fs ih =>
        intro next
        rw [positionsFrom, deltasFrom, ih, Nat.add_sub_cancel_left, List.map_cons]
  rw [positions_eq, deltas_eq, hfrom]

theorem mapTypes_eq_self {ε : Type} {g : VerificationType → Except ε VerificationType} {f : Frame}
    (h : ∀ t ∈ f.types, g t = .ok t) : f.mapTypes g = .ok f := by
  cases f with
  | sameItem delta item => exact map_eq_ok.mpr ⟨item, h item (List.mem_singleton_self _), rfl⟩
  | sameItemExtended delta item =>
      exact map_eq_ok.mpr ⟨item, h item (List.mem_singleton_self _), rfl⟩
  | append delta locals =>
      have hlocals := mapM_eq_ok_self fun t ht => h t (List.mem_append_left _ ht)
      exact map_eq_ok.mpr ⟨locals, hlocals, rfl⟩
  | full delta locals stack =>
      have hlocals := mapM_eq_ok_self fun t ht => h t (List.mem_append_left _ ht)
      have hstack := mapM_eq_ok_self fun t ht => h t (List.mem_append_right _ ht)
      exact bind_eq_ok.mpr ⟨locals, hlocals, map_eq_ok.mpr ⟨stack, hstack, rfl⟩⟩
  | _ => rfl

end Frame

/-- The table with its frames in the compact shape, if it is one of frames. -/
def CodeTable.compact : CodeTable → CodeTable
  | frames fs => frames (fs.map Frame.compact)
  | t => t

def NamedTable.compact (t : NamedTable) : NamedTable := ⟨t.name, t.table.compact⟩

/-- The tables say the same: they are equal, or they hold frames that say the same. -/
inductive CodeTable.SameAs : CodeTable → CodeTable → Prop
  | same {t : CodeTable} (h : ∀ fs, t ≠ .frames fs) : SameAs t t
  | frames {fs fs' : List Frame} (each : List.Forall₂ Frame.SameAs fs fs')
      (positions_eq : Frame.positions fs' = Frame.positions fs) : SameAs (.frames fs) (.frames fs')

theorem CodeTable.sameAs_compact (t : CodeTable) : t.SameAs t.compact := by
  cases t with
  | frames fs =>
      refine .frames ?_ (Frame.positions_map_compact fs)
      rw [List.forall₂_map_right_iff, List.forall₂_same]
      exact fun f _ => f.sameAs_compact
  | _ => exact .same (by simp)

theorem CodeTable.goesBy_compact {name : Option String} (t : CodeTable) (h : t.GoesBy name) :
    t.compact.GoesBy name := by
  cases t <;> exact h

theorem CodeTable.fits_compact (t : CodeTable) (h : t.Fits) : t.compact.Fits := by
  cases t with
  | frames fs =>
      obtain ⟨hcount, hfits⟩ := h
      refine ⟨by rwa [List.length_map], ?_⟩
      rw [List.forall_mem_map]
      exact fun f hf => Frame.fits_withDelta (hfits f hf) _
  | _ => exact h

namespace Body

/-- All that refers to an offset refers to one that has a place. -/
structure Aligned (b : Body) : Prop where
  targets : ∀ n ∈ b.nodes, ∀ o, n.origin = some o → ∀ t ∈ n.instruction.targets o,
    ∃ x : Nat, t = x ∧ b.HasPlace x
  offsets : ∀ user o, b.RefersTo user o → b.HasPlace o

/-- The nested attribute `a'` is what `a` becomes when it is taken apart and put together again. -/
structure AttributeRestored (pool : Pool) (a a' : Attribute) : Prop where
  name_eq : a'.name = a.name
  /-- Both are taken apart to the same but for the shapes of frames, and no more is left of it. -/
  table : ∃ t t', CodeTable.decode (pool.text? a.name) a.info = .ok t ∧
    CodeTable.decode (pool.text? a.name) a'.info = .ok t' ∧ a'.info = t'.info ∧ t.SameAs t'
  /-- What is not taken apart is kept. -/
  kept : CodeTable.namesOther (pool.text? a.name) = true ∨
    CodeTable.namesAnnotations (pool.text? a.name) = true → a' = a

/-- The attribute `c` is `code`, which holds the instructions `l`, without what has no meaning. -/
structure Restored (pool : Pool) (l : List (Nat × Instruction)) (code c : CodeAttribute) : Prop where
  maxStack_eq : c.maxStack = code.maxStack
  maxLocals_eq : c.maxLocals = code.maxLocals
  length_eq : c.code.length = code.code.length
  code_eq : ∀ k, ¬Code.PaddingAt l k → c.code[k]? = code.code[k]?
  padding_eq : ∀ k, Code.PaddingAt l k → c.code[k]? = some 0
  guards_eq : c.guards = code.guards
  attributes : List.Forall₂ (AttributeRestored pool) code.attributes c.attributes

/-! ### Offsets that stay where they are -/

section

variable {map : Nat → Option Nat}

theorem moveOffset16_eq_self {user : OffsetUser} {o : UInt16} (h : map o.toNat = some o.toNat) :
    moveOffset16 map user o = .ok o := by
  rw [moveOffset16, moveOffset, h]
  exact congrArg Except.ok UInt16.ofNat_toNat

theorem moveGuard_eq_self {g : Guard} (h : ∀ o ∈ g.offsets, map o = some o) :
    moveGuard map g = .ok g := by
  simp only [Guard.offsets, List.forall_mem_cons] at h
  obtain ⟨hstart, hstop, hhandler, -⟩ := h
  rw [moveGuard, moveOffset16_eq_self hstart, moveOffset16_eq_self hstop,
    moveOffset16_eq_self hhandler]
  rfl

theorem moveLocal_eq_self {user : OffsetUser} {e : LocalEntry}
    (hfits : e.start.toNat + e.length.toNat ≤ 65535) (h : ∀ o ∈ e.ends, map o = some o) :
    moveLocal map user e = .ok e := by
  simp only [LocalEntry.ends, List.forall_mem_cons] at h
  obtain ⟨hstart, hstop, -⟩ := h
  have hlength : UInt16.ofNat (e.start.toNat + e.length.toNat) - e.start = e.length := by
    rw [UInt16.ofNat_add, UInt16.ofNat_toNat, UInt16.ofNat_toNat, UInt16.add_comm,
      UInt16.add_sub_cancel]
  rw [← toNat_stop hfits] at hstop
  refine moveLocal_eq_ok_iff.mpr ⟨hfits, _, _, moveOffset16_eq_self hstart,
    moveOffset16_eq_self hstop, ?_⟩
  rw [hlength]

theorem moveFrames_eq_compact {fs : List Frame}
    (h : ∀ o, (CodeTable.frames fs).RefersTo .frames o → map o = some o) :
    moveFrames map fs = .ok (fs.map Frame.compact) := by
  have hlength := Frame.length_positions fs
  refine bind_eq_ok.mpr ⟨fs.zip (Frame.positions fs), ?_, congrArg Except.ok ?_⟩
  · apply mapM_eq_ok_self
    rintro ⟨f, position⟩ hmem
    obtain ⟨hf, hposition⟩ := List.of_mem_zip hmem
    have hnew : moveOffset map .frames position = .ok position := by
      rw [moveOffset, h position (.position hposition)]
    have htypes : ∀ t ∈ f.types, moveType map t = .ok t := by
      intro t ht
      cases t with
      | uninitialized o =>
          exact map_eq_ok.mpr ⟨o, moveOffset16_eq_self (h _ (.uninitialized hf ht)), rfl⟩
      | _ => rfl
    exact bind_eq_ok.mpr ⟨_, hnew, map_eq_ok.mpr ⟨f, Frame.mapTypes_eq_self htypes, rfl⟩⟩
  · rw [List.map_snd_zip (Nat.le_of_eq hlength), Frame.deltas_positions]
    apply List.ext_getElem
    · simp [hlength]
    · intro k hk hk'
      simp [Frame.compact]

theorem moveTable_eq_compact {t : CodeTable}
    (hrange : ∀ user o, t.RefersTo user o → user = .locals ∨ user = .localTypes → o ≤ 65535)
    (h : ∀ user o, t.RefersTo user o → map o = some o) :
    moveTable map false t = .ok (some t.compact) := by
  have hlocals : ∀ (user : OffsetUser) (es : List LocalEntry),
      (∀ e ∈ es, ∀ o ∈ e.ends, o ≤ 65535 ∧ map o = some o) →
      es.mapM (moveLocal map user) = .ok es := by
    intro user es hes
    apply mapM_eq_ok_self
    intro e he
    refine moveLocal_eq_self (hes e he _ ?_).1 fun o ho => (hes e he o ho).2
    exact List.mem_cons_of_mem _ (List.mem_singleton_self _)
  cases t with
  | lines es =>
      have hes : es.mapM (moveLine map) = .ok es := by
        apply mapM_eq_ok_self
        intro e he
        exact map_eq_ok.mpr ⟨e.start, moveOffset16_eq_self (h _ _ (.line he)), rfl⟩
      exact map_eq_ok.mpr ⟨es, hes, rfl⟩
  | locals es =>
      refine map_eq_ok.mpr ⟨es, hlocals .locals es fun e he o ho => ?_, rfl⟩
      exact ⟨hrange _ _ (.localEnd he ho) (Or.inl rfl), h _ _ (.localEnd he ho)⟩
  | localTypes es =>
      refine map_eq_ok.mpr ⟨es, hlocals .localTypes es fun e he o ho => ?_, rfl⟩
      exact ⟨hrange _ _ (.localTypeEnd he ho) (Or.inr rfl), h _ _ (.localTypeEnd he ho)⟩
  | frames fs =>
      exact map_eq_ok.mpr ⟨_, moveFrames_eq_compact fun o ho => h _ o ho, rfl⟩
  | typeAnnotations info => rfl
  | other info => rfl

end

/-! ### Laying out what was loaded -/

section

variable {pool : Pool} {code : CodeAttribute} {loaded : Body}
  (hload : Body.decode pool code = .ok loaded)

include hload

/-- In a body that was not touched every loaded offset lands where it was. -/
theorem lands_eq_of_decode {o a : Nat} (h : loaded.Lands o a) : a = o := by
  obtain ⟨is, tables, his, -, rfl⟩ := decode_eq_ok_iff.mp hload
  cases h with
  | stop =>
      rw [length, instructions, map_instruction_places, Code.length_eq, his.stopFrom_eq, Nat.zero_add]
  | node hmem horigin =>
      rw [addresses, instructions, map_instruction_places, Code.addresses, Code.scanl_eq] at hmem
      obtain ⟨q, hq⟩ := List.mem_iff_getElem?.mp hmem
      obtain ⟨hn, ha⟩ := List.getElem?_zip_eq_some.mp hq
      rw [List.getElem?_map, Option.map_eq_some_iff] at hn
      obtain ⟨p, hp, rfl⟩ := hn
      have hlt : q < ((Code.placesFrom 0 is).map Prod.fst).length := by
        rw [List.length_map]
        exact (List.getElem?_eq_some_iff.mp hp).1
      rw [List.getElem?_append_left hlt, List.getElem?_map, hp] at ha
      cases ha
      cases horigin
      rfl

theorem length_eq_of_decode : loaded.length = code.code.length := by
  have hland : loaded.Lands loaded.loadedLength loaded.length := .stop
  rw [lands_eq_of_decode hload hland, loadedLength_of_decode hload]

/-- Of a body that was not touched the offset map leaves alone what has a place. -/
theorem get?_eq_self_of_hasPlace {o : Nat} (ho : loaded.HasPlace o) :
    o ≤ code.code.length ∧ (OffsetMap.ofPairs loaded.offsetPairs).get? o = some o := by
  obtain ⟨a, hland⟩ := hasPlace_iff.mp ho
  obtain rfl := lands_eq_of_decode hload hland
  rw [← length_eq_of_decode hload]
  exact ⟨hland.le_length, (anchored_of_decode hload).get?_iff.mpr hland⟩

theorem any_offsetPairs_of_decode : (loaded.offsetPairs.any fun x => x.1 ≠ x.2) = false := by
  rw [← Bool.not_eq_true, any_offsetPairs_iff]
  rintro ⟨o, a, hland, hne⟩
  exact hne (lands_eq_of_decode hload hland)

/-- A node that jumps only to what has a place keeps its instruction. -/
theorem moveNode_eq_self (hlen : code.code.length ≤ 65535) (haligned : loaded.Aligned) {n : Node}
    {a : Nat} (hmem : (n, a) ∈ loaded.nodes.zip loaded.addresses) :
    moveNode (OffsetMap.ofPairs loaded.offsetPairs).get? n a = .ok n.instruction := by
  refine moveNode_eq_ok_iff.mpr ?_
  cases horigin : n.origin with
  | none => exact Or.inl ⟨rfl, rfl⟩
  | some o =>
      obtain rfl := lands_eq_of_decode hload (.node hmem horigin)
      refine Or.inr ⟨a, rfl, Instruction.relocate_eq_ok_iff.mpr ⟨rfl, ?_⟩⟩
      rw [List.forall₂_same]
      intro t ht
      obtain ⟨x, rfl, hx⟩ := haligned.targets n (List.of_mem_zip hmem).1 a horigin t ht
      obtain ⟨hle, hmap⟩ := get?_eq_self_of_hasPlace hload hx
      exact ⟨x, x, rfl, by omega, hmap, rfl⟩

/-- What an aligned body is laid out to if it was not touched. -/
theorem encode_of_aligned (hlen : code.code.length ≤ 65535) (haligned : loaded.Aligned) :
    loaded.encode = .ok
      { maxStack := loaded.maxStack, maxLocals := loaded.maxLocals,
        code := Code.encode loaded.instructions, guards := loaded.guards,
        attributes := (loaded.tables.map NamedTable.compact).map NamedTable.toAttribute } := by
  have hstays : ∀ o, loaded.HasPlace o →
      o ≤ code.code.length ∧ (OffsetMap.ofPairs loaded.offsetPairs).get? o = some o :=
    fun _ => get?_eq_self_of_hasPlace hload
  have hnodes : (loaded.nodes.zip loaded.addresses).map (fun x => x.1.instruction) =
      loaded.instructions := by
    rw [instructions]
    conv => rhs; rw [← zip_addresses_fst loaded]
    rw [List.map_map]
    rfl
  have hlength : loaded.length ≤ 65535 := by
    rw [length_eq_of_decode hload]
    exact hlen
  refine encode_eq_ok_iff.mpr ⟨hlength, loaded.instructions, loaded.guards,
    loaded.tables.map fun t => some t.compact, ?_, ?_, ?_, ?_⟩
  · rw [← hnodes]
    exact mapM_eq_ok_map fun _ hmem => moveNode_eq_self hload hlen haligned hmem
  · apply mapM_eq_ok_self
    intro g hg
    apply moveGuard_eq_self
    exact fun o ho => (hstays o (haligned.offsets _ _ (.guard hg ho))).2
  · rw [any_offsetPairs_of_decode hload]
    apply mapM_eq_ok_map
    intro t ht
    have hoffsets : ∀ user o, t.table.RefersTo user o → loaded.HasPlace o :=
      fun user o ho => haligned.offsets user o (.table ht ho)
    refine map_eq_ok.mpr ⟨some t.table.compact, moveTable_eq_compact ?_ ?_, rfl⟩
    · exact fun user o ho _ => Nat.le_trans (hstays o (hoffsets user o ho)).1 hlen
    · exact fun user o ho => (hstays o (hoffsets user o ho)).2
  · simp [List.filterMap_map, Function.comp_def]

end

theorem attributeRestored_of_decode {pool : Pool} {a : Attribute} {t : NamedTable}
    (h : NamedTable.decode pool a = .ok t) : AttributeRestored pool a t.compact.toAttribute := by
  obtain ⟨table, htable, rfl⟩ := map_eq_ok.mp h
  obtain ⟨hgoesBy, hfits, -⟩ := CodeTable.of_decode htable
  have hread := CodeTable.decode_info (table.goesBy_compact hgoesBy) (table.fits_compact hfits)
  refine ⟨rfl, ⟨table, table.compact, htable, hread, rfl, table.sameAs_compact⟩, ?_⟩
  rintro (hother | hannotations)
  · rw [CodeTable.decode_of_namesOther hother] at htable
    cases htable
    rfl
  · rw [CodeTable.decode_of_namesAnnotations hannotations] at htable
    cases htable
    rfl

/-- A body that is laid out as it was loaded gives the loaded attribute again, without what has no
meaning, if all offsets in it are those of instructions or the end of the code. -/
theorem encode_untouched {pool : Pool} {code : CodeAttribute} {loaded : Body}
    (hload : Body.decode pool code = .ok loaded) (hlen : code.code.length ≤ 65535)
    (haligned : loaded.Aligned) :
    ∃ l c, Code.decode code.code = .ok l ∧ loaded.encode = .ok c ∧ Restored pool l code c := by
  have henc := encode_of_aligned hload hlen haligned
  obtain ⟨is, tables, his, htables, rfl⟩ := decode_eq_ok_iff.mp hload
  refine ⟨Code.placesFrom 0 is, _, Code.decode_eq_ok_iff.mpr ⟨is, his, rfl⟩, henc, ?_⟩
  dsimp only [instructions]
  rw [map_instruction_places]
  refine ⟨rfl, rfl, ?_, fun k hk => ?_, fun k hk => ?_, rfl, ?_⟩
  · rw [Code.length_encode, Code.length_eq, his.stopFrom_eq, Nat.zero_add]
  · rw [Code.encode_eq]
    exact his.getElem?_eq (by rwa [Nat.zero_add])
  · rw [Code.encode_eq]
    exact Code.getElem?_of_paddingAt (by rwa [Nat.zero_add])
  · rw [List.forall₂_map_right_iff, List.forall₂_map_right_iff]
    exact (mapM_eq_ok.mp htables).imp fun _ _ => attributeRestored_of_decode

/-- A switch with padding that is not zero and a frame behind it in the shape for far ones, with a byte
too many after it. -/
def worn : CodeAttribute :=
  ⟨1, 1, [0xaa, 7, 7, 7, 0, 0, 0, 20, 0, 0, 0, 0, 0, 0, 0, 0, 0, 0, 0, 20, 0xb1], [⟨0, 20, 20, 0⟩],
    [⟨1, [0, 1, 251, 0, 20, 9]⟩, ⟨2, [0, 0]⟩]⟩

def wornPool : Pool :=
  ⟨3, #[.utf8 (bytesOfText "StackMapTable"), .utf8 (bytesOfText "RuntimeVisibleTypeAnnotations")]⟩

def wornBody : Body where
  maxStack := 1
  maxLocals := 1
  scratchBase := 1
  nodes := [⟨some 0, .tableswitch 20 0 0 [20]⟩, ⟨some 20, .vreturn⟩]
  loadedLength := 21
  guards := [⟨0, 20, 20, 0⟩]
  tables := [⟨1, .frames [.sameExtended 20]⟩, ⟨2, .typeAnnotations [0, 0]⟩]

def wornEncoded : CodeAttribute :=
  ⟨1, 1, [0xaa, 0, 0, 0, 0, 0, 0, 20, 0, 0, 0, 0, 0, 0, 0, 0, 0, 0, 0, 20, 0xb1], [⟨0, 20, 20, 0⟩],
    [⟨1, [0, 1, 20]⟩, ⟨2, [0, 0]⟩]⟩

theorem aligned_worn : wornBody.Aligned := by
  have hzero : wornBody.HasPlace 0 := Or.inl (by decide)
  have htwenty : wornBody.HasPlace 20 := Or.inl (by decide)
  constructor
  · intro n hn o horigin t ht
    simp only [wornBody, List.mem_cons, List.not_mem_nil, or_false] at hn
    obtain rfl | rfl := hn
    · cases horigin
      have htarget : t = 20 := by simpa [Instruction.targets, Instruction.displacements] using ht
      exact ⟨20, htarget, htwenty⟩
    · cases ht
  · intro user o ho
    cases ho with
    | guard hg ho =>
        obtain rfl := List.mem_singleton.mp hg
        simp only [Guard.offsets, List.mem_cons, List.not_mem_nil, or_false] at ho
        obtain rfl | rfl | rfl := ho
        · exact hzero
        · exact htwenty
        · exact htwenty
    | table ht ho =>
        simp only [wornBody, List.mem_cons, List.not_mem_nil, or_false] at ht
        obtain rfl | rfl := ht
        · cases ho with
          | position ho =>
              obtain rfl := List.mem_singleton.mp ho
              exact htwenty
          | uninitialized hf ho =>
              obtain rfl := List.mem_singleton.mp hf
              cases ho
        · cases ho

theorem encode_untouched_worn :
    Body.decode wornPool worn = .ok wornBody ∧ worn.code.length ≤ 65535 ∧ wornBody.Aligned ∧
      wornBody.encode = .ok wornEncoded ∧
      Restored wornPool [(0, .tableswitch 20 0 0 [20]), (20, .vreturn)] worn wornEncoded := by
  have hcode : Code.decode worn.code = .ok [(0, .tableswitch 20 0 0 [20]), (20, .vreturn)] := by cbv
  have hframes : NamedTable.decode wornPool ⟨1, [0, 1, 251, 0, 20, 9]⟩ =
      .ok ⟨1, .frames [.sameExtended 20]⟩ := by
    have hname : wornPool.text? 1 = some "StackMapTable" := textOfBytes?_bytesOfText _
    have hrun : (Reader.counted Frame.read).run [0, 1, 251, 0, 20, 9] = .ok [.sameExtended 20] := by
      cbv
    rw [NamedTable.decode, hname]
    exact map_eq_ok.mpr ⟨_, map_eq_ok.mpr ⟨_, hrun, rfl⟩, rfl⟩
  have hannotations : NamedTable.decode wornPool ⟨2, [0, 0]⟩ = .ok ⟨2, .typeAnnotations [0, 0]⟩ := by
    have hname : wornPool.text? 2 = some "RuntimeVisibleTypeAnnotations" :=
      textOfBytes?_bytesOfText _
    rw [NamedTable.decode, hname]
    rfl
  have htables := mapM_eq_ok.mpr (.cons hframes (.cons hannotations .nil))
  have hload : Body.decode wornPool worn = .ok wornBody :=
    bind_eq_ok.mpr ⟨_, hcode, bind_eq_ok.mpr ⟨_, htables, rfl⟩⟩
  have henc : wornBody.encode = .ok wornEncoded := by cbv
  have hlen : worn.code.length ≤ 65535 := by decide
  obtain ⟨l, c, hl, hc, hrestored⟩ := encode_untouched hload hlen aligned_worn
  rw [hcode] at hl
  rw [henc] at hc
  cases hl
  cases hc
  exact ⟨hload, hlen, aligned_worn, henc, hrestored⟩

end Body

end Retrofit
