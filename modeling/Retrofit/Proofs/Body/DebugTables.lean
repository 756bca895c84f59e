import Retrofit.Proofs.Body.Placement

/-!
# Source lines and local variables

However a loaded body was spliced, its debug tables go on saying the same about the same instructions:
a node is on the source line of the instruction whose place it took, and a local variable is in scope
there if it was in scope at that instruction. Nested attributes that are not taken apart are carried
over, and type annotations too as long as nothing has moved.
-/

namespace Retrofit

/-- The range of the local variable holds the code at `offset`. -/
def LocalEntry.Covers (e : LocalEntry) (offset : Nat) : Prop :=
  e.start.toNat ≤ offset ∧ offset < e.start.toNat + e.length.toNat

/-- Whether the table lists local variables or their generic types. -/
def CodeTable.isLocals : CodeTable → Bool
  | locals _ | localTypes _ => true
  | _ => false

namespace Body

/-- The local variable `e'` of the laid out body is `e`, and it is in scope at the nodes whose sources
were in the scope of `e`. -/
structure LocalFollows (b : Body) (sources : List Nat) (e e' : LocalEntry) : Prop where
  covers : ∀ q o a : Nat, sources[q]? = some o → b.addresses[q]? = some a →
    (e'.Covers a ↔ e.Covers o)
  name_eq : e'.name = e.name
  type_eq : e'.type = e.type
  slot_eq : e'.slot = e.slot

inductive LocalTableFollows (b : Body) (sources : List Nat) : NamedTable → NamedTable → Prop
  | locals {name : UInt16} {es es' : List LocalEntry}
      (h : List.Forall₂ (b.LocalFollows sources) es es') :
      LocalTableFollows b sources ⟨name, .locals es⟩ ⟨name, .locals es'⟩
  | localTypes {name : UInt16} {es es' : List LocalEntry}
      (h : List.Forall₂ (b.LocalFollows sources) es es') :
      LocalTableFollows b sources ⟨name, .localTypes es⟩ ⟨name, .localTypes es'⟩

/-- The body `b'`, taken apart from what `b` was laid out to, says about each node of `b` what the loaded
body says about the source of the node. -/
structure DebugFollows (b : Body) (sources : List Nat) (loaded b' : Body) : Prop where
  lineAt?_eq : ∀ q o a : Nat, sources[q]? = some o → b.addresses[q]? = some a →
    b'.lineAt? a = loaded.lineAt? o
  locals : List.Forall₂ (b.LocalTableFollows sources)
    (loaded.tables.filter fun t => t.table.isLocals) (b'.tables.filter fun t => t.table.isLocals)

/-- What has become of the nested attributes that are not moved. -/
structure CarriesOver (b : Body) (pool : Pool) (code c : CodeAttribute) : Prop where
  other : (c.attributes.filter fun a => CodeTable.namesOther (pool.text? a.name)) =
    code.attributes.filter fun a => CodeTable.namesOther (pool.text? a.name)
  dropped : b.Shifted →
    (c.attributes.filter fun a => CodeTable.namesAnnotations (pool.text? a.name)) = []
  kept : ¬b.Shifted → (c.attributes.filter fun a => CodeTable.namesAnnotations (pool.text? a.name)) =
    code.attributes.filter fun a => CodeTable.namesAnnotations (pool.text? a.name)

variable {b : Body}

/-! ### Lines and local variables -/

section

variable {sources : List Nat} (horder : b.InOrder sources) {q o a : Nat}
  (hsource : sources[q]? = some o) (ha : b.addresses[q]? = some a)

include horder hsource ha

/-- An entry says more than another one about a node exactly if the loaded entry said more than the
loaded other one about the source: starts of entries are in the same order before and after, also where
they are the same. -/
theorem nearer_of_placed {best best' : Option LineEntry} {e e' : LineEntry}
    (hbest : Option.Rel b.LinePlaced best best') (he : b.LinePlaced e e') :
    Option.Rel b.LinePlaced (nearer o best e) (nearer a best' e') := by
  have hle := horder.le_iff he.start hsource ha
  unfold nearer
  by_cases hbehind : o < e.start.toNat
  · rw [if_pos hbehind, if_pos (by omega)]
    exact hbest
  · rw [if_neg hbehind, if_neg (by omega)]
    cases hbest with
    | none => exact .some he
    | @some m m' hm =>
        have hlt := horder.ordered.lands_lt_iff he.start hm.start
        by_cases hlast : m.start ≤ e.start
        · have hlast' : m'.start ≤ e'.start := by
            rw [UInt16.le_iff_toNat_le] at hlast ⊢
            omega
          dsimp only
          rw [if_pos hlast, if_pos hlast']
          exact .some he
        · have hlast' : ¬m'.start ≤ e'.start := by
            rw [UInt16.le_iff_toNat_le] at hlast ⊢
            omega
          dsimp only
          rw [if_neg hlast, if_neg hlast']
          exact .some hm

theorem foldl_nearer_of_placed {es es' : List LineEntry} (hes : List.Forall₂ b.LinePlaced es es')
    {best best' : Option LineEntry} (hbest : Option.Rel b.LinePlaced best best') :
    Option.Rel b.LinePlaced (es.foldl (nearer o) best) (es'.foldl (nearer a) best') := by
  induction hes generalizing best best' with
  | nil => exact hbest
  | cons he _ ih => exact ih (nearer_of_placed horder hsource ha hbest he)

/-- Line tables are looked through one after the other, and nothing else has entries. -/
theorem foldl_lineEntries_of_placed {ts : List NamedTable} {os : List (Option NamedTable)}
    (hts : List.Forall₂ b.NamedPlaced ts os) {best best' : Option LineEntry}
    (hbest : Option.Rel b.LinePlaced best best') :
    Option.Rel b.LinePlaced
      (ts.foldl (fun best t => t.table.lineEntries.foldl (nearer o) best) best)
      ((os.filterMap id).foldl (fun best t => t.table.lineEntries.foldl (nearer a) best) best') := by
  induction hts generalizing best best' with
  | nil => exact hbest
  | @cons t x ts os ht _ ih =>
      obtain ⟨name, table⟩ := t
      obtain ⟨table', htable, rfl⟩ := ht
      rw [List.foldl_cons]
      dsimp only at htable ⊢
      cases htable with
      | lines hes => exact ih (foldl_nearer_of_placed horder hsource ha hes hbest)
      | annotationsDropped _ => exact ih hbest
      | _ => exact ih hbest

theorem lineAt?_of_placed {b₀ b' : Body} {os : List (Option NamedTable)}
    (hts : List.Forall₂ b.NamedPlaced b₀.tables os) (hb' : b'.tables = os.filterMap id) :
    b'.lineAt? a = b₀.lineAt? o := by
  have hrel := foldl_lineEntries_of_placed horder hsource ha hts .none
  rw [lineAt?, lineAt?, hb']
  generalize b₀.tables.foldl _ none = best at hrel ⊢
  generalize (os.filterMap id).foldl _ none = best' at hrel ⊢
  cases hrel with
  | none => rfl
  | some h => exact congrArg some h.line_eq

end

theorem LocalPlaced.follows {sources : List Nat} (horder : b.InOrder sources) {e e' : LocalEntry}
    (h : b.LocalPlaced e e') : b.LocalFollows sources e e' := by
  refine ⟨fun q o a hsource ha => ?_, h.name_eq, h.type_eq, h.slot_eq⟩
  have hstart := horder.le_iff h.start hsource ha
  have hstop := horder.le_iff h.stop hsource ha
  unfold LocalEntry.Covers
  omega

theorem localTables_of_placed {sources : List Nat} (horder : b.InOrder sources)
    {ts : List NamedTable} {os : List (Option NamedTable)} (h : List.Forall₂ b.NamedPlaced ts os) :
    List.Forall₂ (b.LocalTableFollows sources) (ts.filter fun t => t.table.isLocals)
      ((os.filterMap id).filter fun t => t.table.isLocals) := by
  apply forall₂_filter_filterMap
  refine h.imp ?_
  rintro ⟨name, table⟩ _ ⟨table', htable, rfl⟩
  dsimp only at htable ⊢
  constructor
  · rintro t' ht'
    obtain ⟨table', rfl, rfl⟩ := Option.map_eq_some_iff.mp ht'
    cases htable <;> rfl
  · intro hlocals
    cases htable with
    | locals h => exact ⟨_, rfl, .locals (h.imp fun _ _ he => he.follows horder)⟩
    | localTypes h => exact ⟨_, rfl, .localTypes (h.imp fun _ _ he => he.follows horder)⟩
    | _ => cases hlocals

/-! ### Attributes that are not moved -/

section

variable {pool : Pool} {a : Attribute} {t : NamedTable} {o : Option NamedTable}
  (hload : NamedTable.decode pool a = .ok t) (hplaced : b.NamedPlaced t o)

include hload hplaced

theorem name_of_placed {t' : NamedTable} (h : o = some t') : t'.name = a.name := by
  obtain ⟨table, -, rfl⟩ := map_eq_ok.mp hload
  obtain ⟨table', -, rfl⟩ := hplaced
  obtain ⟨_, -, rfl⟩ := Option.map_eq_some_iff.mp h
  rfl

theorem other_of_placed (hname : CodeTable.namesOther (pool.text? a.name) = true) :
    ∃ t', o = some t' ∧ a = t'.toAttribute := by
  obtain ⟨table, htable, rfl⟩ := map_eq_ok.mp hload
  obtain ⟨table', hplaced, rfl⟩ := hplaced
  rw [CodeTable.decode_of_namesOther hname] at htable
  cases htable
  cases hplaced
  exact ⟨_, rfl, rfl⟩

theorem annotations_of_placed
    (hname : CodeTable.namesAnnotations (pool.text? a.name) = true) :
    (b.Shifted → o = none) ∧ (¬b.Shifted → ∃ t', o = some t' ∧ a = t'.toAttribute) := by
  obtain ⟨table, htable, rfl⟩ := map_eq_ok.mp hload
  obtain ⟨table', hplaced, rfl⟩ := hplaced
  rw [CodeTable.decode_of_namesAnnotations hname] at htable
  cases htable
  cases hplaced with
  | annotationsKept hs => exact ⟨fun hshifted => absurd hshifted hs, fun _ => ⟨_, rfl, rfl⟩⟩
  | annotationsDropped hs => exact ⟨fun _ => rfl, fun hnot => absurd hs hnot⟩

end

theorem carriesOver_of_placed {pool : Pool} {code c : CodeAttribute} {ts : List NamedTable}
    {os : List (Option NamedTable)} (hload : code.attributes.mapM (NamedTable.decode pool) = .ok ts)
    (hplaced : List.Forall₂ b.NamedPlaced ts os)
    (hc : c.attributes = (os.filterMap id).map NamedTable.toAttribute) :
    b.CarriesOver pool code c := by
  have hboth : List.Forall₂ (fun a o => ∃ t, NamedTable.decode pool a = .ok t ∧ b.NamedPlaced t o)
      code.attributes os :=
    forall₂_trans (fun _ t _ ha ho => ⟨t, ha, ho⟩) (mapM_eq_ok.mp hload) hplaced
  refine ⟨?_, fun hshifted => ?_, fun hshifted => ?_⟩
  · rw [hc, eq_comm, ← List.forall₂_eq_eq_eq]
    apply forall₂_filter_of_move fun name => CodeTable.namesOther (pool.text? name)
    refine hboth.imp ?_
    rintro a o ⟨t, ha, ho⟩
    exact ⟨fun _ => name_of_placed ha ho, other_of_placed ha ho⟩
  · rw [hc, List.filter_eq_nil_iff]
    intro a' ha' hname
    obtain ⟨t', ht', rfl⟩ := List.mem_map.mp ha'
    obtain ⟨o, ho, rfl⟩ := List.mem_filterMap.mp ht'
    obtain ⟨a, -, t, ha, ho⟩ := exists_of_forall₂ hboth.flip ho
    have hsame : t'.toAttribute.name = a.name := name_of_placed ha ho rfl
    rw [hsame] at hname
    cases (annotations_of_placed ha ho hname).1 hshifted
  · rw [hc, eq_comm, ← List.forall₂_eq_eq_eq]
    apply forall₂_filter_of_move fun name => CodeTable.namesAnnotations (pool.text? name)
    refine hboth.imp ?_
    rintro a o ⟨t, ha, ho⟩
    exact ⟨fun _ => name_of_placed ha ho, fun hname => (annotations_of_placed ha ho hname).2 hshifted⟩

/-! ### The laid out body, loaded again -/

/-- What a sound body is laid out to is taken apart again, to one node at each address. -/
theorem exists_decode_of_placed {pool : Pool} {c : CodeAttribute} {ts : List NamedTable}
    (hb : b.Sound) (henc : b.encode = .ok c)
    (hts : c.attributes.mapM (NamedTable.decode pool) = .ok ts) :
    ∃ b', Body.decode pool c = .ok b' ∧ b'.origins ++ [c.code.length] = b.addresses ∧
      b'.tables = ts := by
  obtain ⟨is, hlaid, hcode⟩ := exists_laidOut hb.anchored henc
  have hdecode := decode_of_laidOut hlaid hb.wellFormed
  have haddresses := addresses_of_laidOut hlaid
  rw [← haddresses, Code.addresses_zip, ← hcode] at hdecode
  refine ⟨_, bind_eq_ok.mpr ⟨_, hdecode, bind_eq_ok.mpr ⟨ts, hts, rfl⟩⟩, ?_, rfl⟩
  rw [← haddresses, Code.addresses, Code.scanl_eq, hcode, Code.length_encode, Code.length_eq]
  exact congrArg (· ++ _) (filterMap_origin_places _)

/-- However a loaded body was spliced with instructions that do not jump: what it is laid out to is
loaded again with one node at the address of each node, and its debug tables say there what they said
about the sources of the nodes. Other nested attributes are carried over byte for byte, and type
annotations are given up exactly if something has moved. -/
theorem encode_debugFollows {pool : Pool} {code c : CodeAttribute} {loaded b : Body}
    {sources : List Nat} (hload : Body.decode pool code = .ok loaded)
    (hstraight : Spliced Straight loaded b) (hsources : SplicedFrom loaded b sources)
    (henc : b.encode = .ok c) :
    ∃ b', Body.decode pool c = .ok b' ∧ sources.length = b.nodes.length ∧
      b'.origins ++ [c.code.length] = b.addresses ∧ b.DebugFollows sources loaded b' ∧
      b.CarriesOver pool code c := by
  have horder := hsources.inOrder hload
  have hplaced := placedIn_of_encode hload hstraight.revised henc
  obtain ⟨os, hos, hattributes, hread⟩ := hplaced.tables
  have hsound := hstraight.sound (sound_of_decode hload)
  obtain ⟨b', hb', horigins, htables⟩ := exists_decode_of_placed hsound henc hread
  obtain ⟨js, ts, -, hts, rfl⟩ := decode_eq_ok_iff.mp hload
  rw [show b.tables = ts from congrArg Body.tables hstraight.eq] at hos
  refine ⟨b', hb', horder.length_eq, horigins, ⟨?_, ?_⟩, carriesOver_of_placed hts hos hattributes⟩
  · exact fun q o a hsource ha => lineAt?_of_placed horder hsource ha hos htables
  · rw [htables]
    exact localTables_of_placed horder hos

/-- Two line tables of which the first has two entries for one place, a local variable that comes into
scope there, type annotations and an attribute of another kind. -/
def charted : CodeAttribute :=
  ⟨1, 1, [0x01, 0x00, 0xb0], [],
    [⟨1, [0, 3, 0, 1, 0, 7, 0, 0, 0, 5, 0, 1, 0, 8]⟩, ⟨2, [0, 1, 0, 1, 0, 2, 0, 5, 0, 6, 0, 0]⟩,
      ⟨3, [0, 0]⟩, ⟨4, [9]⟩, ⟨1, [0, 1, 0, 0, 0, 6]⟩]⟩

def chartedPool : Pool :=
  ⟨5, #[.utf8 (bytesOfText "LineNumberTable"), .utf8 (bytesOfText "LocalVariableTable"),
    .utf8 (bytesOfText "RuntimeVisibleTypeAnnotations"), .utf8 (bytesOfText "Deprecated")]⟩

def chartedBody : Body where
  maxStack := 1
  maxLocals := 1
  scratchBase := 1
  nodes := [⟨some 0, .pushNull⟩, ⟨some 1, .nop⟩, ⟨some 2, .areturn⟩]
  loadedLength := 3
  guards := []
  tables := [⟨1, .lines [⟨1, 7⟩, ⟨0, 5⟩, ⟨1, 8⟩]⟩, ⟨2, .locals [⟨1, 2, 5, 6, 0⟩]⟩,
    ⟨3, .typeAnnotations [0, 0]⟩, ⟨4, .other [9]⟩, ⟨1, .lines [⟨0, 6⟩]⟩]

/-- The `Nop` replaced by a push and a pop, and the push before it by a `Nop` and a push. -/
def chartedSpliced : Body :=
  (chartedBody.splice 1 [.pushNull, .pop]).splice 0 [.nop, .pushNull]

def chartedEncoded : CodeAttribute :=
  ⟨1, 1, [0x00, 0x01, 0x01, 0x57, 0xb0], [],
    [⟨1, [0, 3, 0, 2, 0, 7, 0, 0, 0, 5, 0, 2, 0, 8]⟩, ⟨2, [0, 1, 0, 2, 0, 3, 0, 5, 0, 6, 0, 0]⟩,
      ⟨4, [9]⟩, ⟨1, [0, 1, 0, 0, 0, 6]⟩]⟩

theorem decode_charted : Body.decode chartedPool charted = .ok chartedBody := by
  have hlines : NamedTable.decode chartedPool ⟨1, [0, 3, 0, 1, 0, 7, 0, 0, 0, 5, 0, 1, 0, 8]⟩ =
      .ok ⟨1, .lines [⟨1, 7⟩, ⟨0, 5⟩, ⟨1, 8⟩]⟩ := by
    have hname : chartedPool.text? 1 = some "LineNumberTable" := textOfBytes?_bytesOfText _
    have hrun : (Reader.counted LineEntry.read).run [0, 3, 0, 1, 0, 7, 0, 0, 0, 5, 0, 1, 0, 8] =
        .ok [⟨1, 7⟩, ⟨0, 5⟩, ⟨1, 8⟩] := by cbv
    rw [NamedTable.decode, hname]
    exact map_eq_ok.mpr ⟨_, map_eq_ok.mpr ⟨_, hrun, rfl⟩, rfl⟩
  have hlocals : NamedTable.decode chartedPool ⟨2, [0, 1, 0, 1, 0, 2, 0, 5, 0, 6, 0, 0]⟩ =
      .ok ⟨2, .locals [⟨1, 2, 5, 6, 0⟩]⟩ := by
    have hname : chartedPool.text? 2 = some "LocalVariableTable" := textOfBytes?_bytesOfText _
    have hrun : (Reader.counted LocalEntry.read).run [0, 1, 0, 1, 0, 2, 0, 5, 0, 6, 0, 0] =
        .ok [⟨1, 2, 5, 6, 0⟩] := by cbv
    rw [NamedTable.decode, hname]
    exact map_eq_ok.mpr ⟨_, map_eq_ok.mpr ⟨_, hrun, rfl⟩, rfl⟩
  have hannotations : NamedTable.decode chartedPool ⟨3, [0, 0]⟩ =
      .ok ⟨3, .typeAnnotations [0, 0]⟩ := by
    have hname : chartedPool.text? 3 = some "RuntimeVisibleTypeAnnotations" :=
      textOfBytes?_bytesOfText _
    rw [NamedTable.decode, hname]
    rfl
  have hother : NamedTable.decode chartedPool ⟨4, [9]⟩ = .ok ⟨4, .other [9]⟩ := by
    have hname : chartedPool.text? 4 = some "Deprecated" := textOfBytes?_bytesOfText _
    rw [NamedTable.decode, hname, CodeTable.decode_other (by simp [CodeTable.names])]
    rfl
  have hmore : NamedTable.decode chartedPool ⟨1, [0, 1, 0, 0, 0, 6]⟩ =
      .ok ⟨1, .lines [⟨0, 6⟩]⟩ := by
    have hname : chartedPool.text? 1 = some "LineNumberTable" := textOfBytes?_bytesOfText _
    have hrun : (Reader.counted LineEntry.read).run [0, 1, 0, 0, 0, 6] = .ok [⟨0, 6⟩] := by cbv
    rw [NamedTable.decode, hname]
    exact map_eq_ok.mpr ⟨_, map_eq_ok.mpr ⟨_, hrun, rfl⟩, rfl⟩
  have hcode : Code.decode charted.code = .ok [(0, .pushNull), (1, .nop), (2, .areturn)] := by cbv
  have htables := mapM_eq_ok.mpr
    (.cons hlines (.cons hlocals (.cons hannotations (.cons hother (.cons hmore .nil)))))
  exact bind_eq_ok.mpr ⟨_, hcode, bind_eq_ok.mpr ⟨_, htables, rfl⟩⟩

/-- The pop is on the line of the `Nop`, for which the later of two entries counts. The annotations are
gone, and the attribute of another kind is the same. -/
theorem encode_debugFollows_charted :
    Body.decode chartedPool charted = .ok chartedBody ∧
      Spliced Straight chartedBody chartedSpliced ∧
      SplicedFrom chartedBody chartedSpliced [0, 0, 1, 1, 2] ∧
      chartedSpliced.encode = .ok chartedEncoded ∧
      ∃ b', Body.decode chartedPool chartedEncoded = .ok b' ∧ b'.lineAt? 3 = some 8 ∧
        chartedSpliced.DebugFollows [0, 0, 1, 1, 2] chartedBody b' ∧
        chartedSpliced.CarriesOver chartedPool charted chartedEncoded ∧
        (chartedEncoded.attributes.filter fun a =>
          CodeTable.namesAnnotations (chartedPool.text? a.name)) = [] := by
  have hstraight : Spliced Straight chartedBody chartedSpliced := by
    refine .tail (.single ⟨1, .pushNull, [.pop], by decide, ?_, rfl⟩)
      ⟨0, .nop, [.pushNull], by decide, ?_, rfl⟩
    · simp only [List.forall_mem_cons]
      exact ⟨rfl, rfl, by simp⟩
    · simp only [List.forall_mem_cons]
      exact ⟨rfl, rfl, by simp⟩
  have honce : SplicedFrom chartedBody (chartedBody.splice 1 [.pushNull, .pop]) [0, 1, 1, 2] :=
    .splice _ _ .loaded rfl
  have hsources : SplicedFrom chartedBody chartedSpliced [0, 0, 1, 1, 2] := .splice _ _ honce rfl
  have henc : chartedSpliced.encode = .ok chartedEncoded := by cbv
  obtain ⟨b', hb', -, -, hfollows, hcarries⟩ :=
    encode_debugFollows decode_charted hstraight hsources henc
  have hshifted : chartedSpliced.Shifted := ⟨3, 5, .stop, by decide⟩
  have hline := hfollows.lineAt?_eq 3 1 3 rfl rfl
  exact ⟨decode_charted, hstraight, hsources, henc, b', hb', hline, hfollows, hcarries,
    hcarries.dropped hshifted⟩

end Body

end Retrofit
