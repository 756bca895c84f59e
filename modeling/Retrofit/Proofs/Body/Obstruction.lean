import Retrofit.Proofs.Body.Placement

/-!
# What stands in the way of a layout

A revised body cannot be laid out if its code gets too long, if something refers to a loaded offset that
has no place any more, if a local variable's range ends behind the last 16-bit offset, or if a jump gets
too far for its operand. Nothing else can go wrong: new places keep the order of the loaded offsets and
lie in code that is short enough, so that no distance is negative and no offset is cut off.
-/

namespace Retrofit

/-! ### Offsets that something refers to -/

def Guard.offsets (g : Guard) : List Nat := [g.start.toNat, g.stop.toNat, g.handler.toNat]

/-- The two ends of the range of a local variable. -/
def LocalEntry.ends (e : LocalEntry) : List Nat :=
  [e.start.toNat, e.start.toNat + e.length.toNat]

/-- The table refers to an offset. -/
inductive CodeTable.RefersTo : CodeTable → OffsetUser → Nat → Prop
  | line {es : List LineEntry} {e : LineEntry} (he : e ∈ es) :
      RefersTo (.lines es) .lines e.start.toNat
  | localEnd {es : List LocalEntry} {e : LocalEntry} {o : Nat} (he : e ∈ es) (ho : o ∈ e.ends) :
      RefersTo (.locals es) .locals o
  | localTypeEnd {es : List LocalEntry} {e : LocalEntry} {o : Nat} (he : e ∈ es) (ho : o ∈ e.ends) :
      RefersTo (.localTypes es) .localTypes o
  | position {fs : List Frame} {o : Nat} (ho : o ∈ Frame.positions fs) :
      RefersTo (.frames fs) .frames o
  | uninitialized {fs : List Frame} {f : Frame} {o : UInt16} (hf : f ∈ fs)
      (ho : .uninitialized o ∈ f.types) : RefersTo (.frames fs) .frames o.toNat

namespace Body

/-- A guard or a table of the body refers to an offset. -/
inductive RefersTo (b : Body) : OffsetUser → Nat → Prop
  | guard {g : Guard} {o : Nat} (hg : g ∈ b.guards) (ho : o ∈ g.offsets) : RefersTo b .guards o
  | table {t : NamedTable} {user : OffsetUser} {o : Nat} (ht : t ∈ b.tables)
      (ho : t.table.RefersTo user o) : RefersTo b user o

/-- A loaded offset that still means something: a node has it as its origin, or the loaded code ended
there. -/
def HasPlace (b : Body) (o : Nat) : Prop := o ∈ b.origins ∨ o = b.loadedLength

/-- What stands in the way of laying out the body, as the error that says so. -/
inductive Obstructs (b : Body) : LayoutError → Prop
  | tooLarge (hlen : 65535 < b.length) : Obstructs b (.tooLarge b.length)
  /-- A branch loaded at `o` is left without the target `t`. -/
  | target {n : Node} {o : Nat} {t : Int} (hn : n ∈ b.nodes) (horigin : n.origin = some o)
      (ht : t ∈ n.instruction.targets o) (hplace : ∀ x : Nat, t = x → ¬b.HasPlace x) :
      Obstructs b (.branch o (.unmappedTarget t))
  /-- A jump with a 16-bit operand, loaded at `o` and now at `a`, gets too far from its target, which
  is now at `t'`. -/
  | displacement {op : Opcode .jump} {d : Int16} {o a : Nat} {t' : Int}
      (hn : (⟨some o, .jump op d⟩, a) ∈ b.nodes.zip b.addresses)
      (ht : b.Follows (o + d.toInt) t') (hfar : t' - a < -32768 ∨ 32767 < t' - a) :
      Obstructs b (.branch o (.overflow (t' - a)))
  | offset {user : OffsetUser} {o : Nat} (ho : b.RefersTo user o) (hplace : ¬b.HasPlace o) :
      Obstructs b (.unmapped user o)
  /-- The range of a local variable ends at `o`. -/
  | range {user : OffsetUser} {o : Nat} (ho : b.RefersTo user o)
      (huser : user = .locals ∨ user = .localTypes) (hlarge : 65535 < o) :
      Obstructs b (.unmapped user o)

variable {b : Body}

theorem hasPlace_iff {o : Nat} : b.HasPlace o ↔ ∃ a, b.Lands o a := by
  have hmem : o ∈ b.offsetPairs.map Prod.fst ↔ ∃ a, b.Lands o a := by
    simp only [List.mem_map, Prod.exists, exists_and_right, exists_eq_right, mem_offsetPairs]
  rw [← hmem, map_fst_offsetPairs, List.mem_append, List.mem_singleton, HasPlace]

/-! ### Errors name what stands in the way -/

theorem moveOffset_eq_error {map : Nat → Option Nat} {user : OffsetUser} {o : Nat} {e : LayoutError}
    (h : moveOffset map user o = .error e) : e = .unmapped user o ∧ map o = none := by
  unfold moveOffset at h
  split at h
  · cases h
  · rename_i hnone
    cases h
    exact ⟨rfl, hnone⟩

/-- A frame whose types cannot be replaced has one that cannot be. -/
theorem exists_of_mapTypes_eq_error {ε : Type} {g : VerificationType → Except ε VerificationType}
    {f : Frame} {e : ε} (h : f.mapTypes g = .error e) : ∃ t ∈ f.types, g t = .error e := by
  cases f with
  | sameItem delta item => exact ⟨item, List.mem_singleton_self _, map_eq_error.mp h⟩
  | sameItemExtended delta item => exact ⟨item, List.mem_singleton_self _, map_eq_error.mp h⟩
  | append delta locals =>
      obtain ⟨t, ht, he⟩ := exists_of_mapM_eq_error (map_eq_error.mp h)
      exact ⟨t, List.mem_append_left _ ht, he⟩
  | full delta locals stack =>
      obtain h | ⟨locals', -, h⟩ := bind_eq_error.mp h
      · obtain ⟨t, ht, he⟩ := exists_of_mapM_eq_error h
        exact ⟨t, List.mem_append_left _ ht, he⟩
      · obtain ⟨t, ht, he⟩ := exists_of_mapM_eq_error (map_eq_error.mp h)
        exact ⟨t, List.mem_append_right _ ht, he⟩
  | _ => cases h

section

variable (hb : b.Anchored)

include hb

theorem not_hasPlace_of_get? {o : Nat} (h : (OffsetMap.ofPairs b.offsetPairs).get? o = none) :
    ¬b.HasPlace o := by
  intro hplace
  obtain ⟨a, hland⟩ := hasPlace_iff.mp hplace
  rw [hb.get?_iff.mpr hland] at h
  cases h

theorem obstructs_of_moveOffset {user : OffsetUser} {o : Nat} {e : LayoutError}
    (ho : b.RefersTo user o)
    (h : moveOffset (OffsetMap.ofPairs b.offsetPairs).get? user o = .error e) : b.Obstructs e := by
  obtain ⟨rfl, hnone⟩ := moveOffset_eq_error h
  exact .offset ho (not_hasPlace_of_get? hb hnone)

theorem obstructs_of_moveOffset16 {user : OffsetUser} {o : UInt16} {e : LayoutError}
    (ho : b.RefersTo user o.toNat)
    (h : moveOffset16 (OffsetMap.ofPairs b.offsetPairs).get? user o = .error e) : b.Obstructs e :=
  obstructs_of_moveOffset hb ho (map_eq_error.mp h)

theorem obstructs_of_moveGuard {g : Guard} {e : LayoutError} (hg : g ∈ b.guards)
    (h : moveGuard (OffsetMap.ofPairs b.offsetPairs).get? g = .error e) : b.Obstructs e := by
  have hrefers : ∀ o ∈ g.offsets, b.RefersTo .guards o := fun o ho => .guard hg ho
  simp only [Guard.offsets, List.forall_mem_cons] at hrefers
  obtain ⟨hstart, hstop, hhandler, -⟩ := hrefers
  obtain h | ⟨start, -, h⟩ := bind_eq_error.mp h
  · exact obstructs_of_moveOffset16 hb hstart h
  · obtain h | ⟨stop, -, h⟩ := bind_eq_error.mp h
    · exact obstructs_of_moveOffset16 hb hstop h
    · exact obstructs_of_moveOffset16 hb hhandler (map_eq_error.mp h)

theorem obstructs_of_moveLocal {user : OffsetUser} (huser : user = .locals ∨ user = .localTypes)
    {entry : LocalEntry} {e : LayoutError} (hrefers : ∀ o ∈ entry.ends, b.RefersTo user o)
    (h : moveLocal (OffsetMap.ofPairs b.offsetPairs).get? user entry = .error e) :
    b.Obstructs e := by
  simp only [LocalEntry.ends, List.forall_mem_cons] at hrefers
  obtain ⟨hstart, hstop, -⟩ := hrefers
  unfold moveLocal at h
  dsimp only at h
  split at h
  · rename_i hlarge
    cases h
    exact .range hstop huser hlarge
  · rename_i hfits
    have hnat := toNat_stop (Nat.le_of_not_lt hfits)
    obtain h | ⟨start, -, h⟩ := bind_eq_error.mp h
    · exact obstructs_of_moveOffset16 hb hstart h
    · refine obstructs_of_moveOffset16 hb ?_ (map_eq_error.mp h)
      rw [hnat]
      exact hstop

theorem obstructs_of_moveFrames {fs : List Frame} {e : LayoutError}
    (hrefers : ∀ user o, (CodeTable.frames fs).RefersTo user o → b.RefersTo user o)
    (h : moveFrames (OffsetMap.ofPairs b.offsetPairs).get? fs = .error e) : b.Obstructs e := by
  obtain h | ⟨moved, -, h⟩ := bind_eq_error.mp h
  · obtain ⟨⟨f, position⟩, hmem, h⟩ := exists_of_mapM_eq_error h
    obtain ⟨hf, hposition⟩ := List.of_mem_zip hmem
    obtain h | ⟨new, -, h⟩ := bind_eq_error.mp h
    · exact obstructs_of_moveOffset hb (hrefers _ _ (.position hposition)) h
    · obtain ⟨t, ht, h⟩ := exists_of_mapTypes_eq_error (map_eq_error.mp h)
      cases t with
      | uninitialized o =>
          exact obstructs_of_moveOffset16 hb (hrefers _ _ (.uninitialized hf ht))
            (map_eq_error.mp h)
      | _ => cases h
  · cases h

theorem obstructs_of_moveNamedTable {moved : Bool} {t : NamedTable} {e : LayoutError}
    (ht : t ∈ b.tables)
    (h : moveNamedTable (OffsetMap.ofPairs b.offsetPairs).get? moved t = .error e) :
    b.Obstructs e := by
  have hrefers : ∀ user o, t.table.RefersTo user o → b.RefersTo user o :=
    fun _ _ ho => .table ht ho
  replace h := map_eq_error.mp h
  cases htable : t.table with
  | lines es =>
      rw [htable] at h hrefers
      obtain ⟨entry, hentry, h⟩ := exists_of_mapM_eq_error (map_eq_error.mp h)
      exact obstructs_of_moveOffset16 hb (hrefers _ _ (.line hentry)) (map_eq_error.mp h)
  | locals es =>
      rw [htable] at h hrefers
      obtain ⟨entry, hentry, h⟩ := exists_of_mapM_eq_error (map_eq_error.mp h)
      exact obstructs_of_moveLocal hb (Or.inl rfl) (fun o ho => hrefers _ _ (.localEnd hentry ho)) h
  | localTypes es =>
      rw [htable] at h hrefers
      obtain ⟨entry, hentry, h⟩ := exists_of_mapM_eq_error (map_eq_error.mp h)
      refine obstructs_of_moveLocal hb (Or.inr rfl) (fun o ho => ?_) h
      exact hrefers _ _ (.localTypeEnd hentry ho)
  | frames fs =>
      rw [htable] at h hrefers
      exact obstructs_of_moveFrames hb hrefers (map_eq_error.mp h)
  | typeAnnotations info =>
      rw [htable] at h
      cases h
  | other info =>
      rw [htable] at h
      cases h

/-- A branch that cannot be moved. Only 16-bit operands can be too small, as the new code is not long
enough for others. -/
theorem obstructs_of_moveNode (hstop : b.loadedLength < 2 ^ 32) (hlen : b.length ≤ 65535) {n : Node}
    {a : Nat} {e : LayoutError} (hmem : (n, a) ∈ b.nodes.zip b.addresses)
    (h : moveNode (OffsetMap.ofPairs b.offsetPairs).get? n a = .error e) : b.Obstructs e := by
  unfold moveNode at h
  split at h
  · cases h
  · rename_i o horigin
    split at h
    · cases h
    · rename_i err herr
      cases h
      have hland : b.Lands o a := .node hmem horigin
      obtain ⟨t, ht, hstuck⟩ := Instruction.relocate_eq_error herr
      cases hstuck with
      | unmapped hunmapped =>
          refine .target (List.of_mem_zip hmem).1 horigin ht ?_
          intro x hx hplace
          have hlt : x < 2 ^ 32 := by
            obtain hx | rfl := hplace
            · exact Nat.lt_trans (hb.lt_loadedLength x hx) hstop
            · exact hstop
          obtain ⟨a', hland'⟩ := hasPlace_iff.mp hplace
          exact hunmapped a' ⟨x, a', hx, hlt, hb.get?_iff.mpr hland', rfl⟩
      | @overflow t' hmoves hfar =>
          obtain ⟨old, new, rfl, -, hmap, rfl⟩ := hmoves
          have hland' := hb.get?_iff.mp hmap
          have hle := hland.le_length
          have hle' := hland'.le_length
          obtain ⟨origin, i⟩ := n
          cases horigin
          cases i with
          | jump op d =>
              have ht' : (old : Int) = o + d.toInt := List.mem_singleton.mp ht
              rw [Instruction.reach] at hfar
              exact .displacement hmem ⟨old, new, ht'.symm, hland', rfl⟩ (by omega)
          | _ =>
              have hfar : (new : Int) - a < -2147483648 ∨ 2147483648 ≤ (new : Int) - a := hfar
              omega

end

/-! ### Nothing stands in the way of what is laid out -/

theorem TypeFollows.lands {o : UInt16} {t' : VerificationType}
    (h : b.TypeFollows (.uninitialized o) t') : ∃ a, b.Lands o.toNat a := by
  cases h with
  | same h => exact absurd rfl (h o)
  | uninitialized h => exact ⟨_, h⟩

theorem LocalPlaced.lands {e e' : LocalEntry} (h : b.LocalPlaced e e') {o : Nat} (ho : o ∈ e.ends) :
    o ≤ 65535 ∧ ∃ a, b.Lands o a := by
  have hfits := h.fits
  rw [LocalEntry.ends, List.mem_cons, List.mem_singleton] at ho
  obtain rfl | rfl := ho
  · exact ⟨by omega, _, h.start⟩
  · exact ⟨hfits, _, h.stop⟩

/-- Whatever a table in its new place referred to has a place. The ranges of local variables end at a
16-bit offset. -/
theorem TablePlaced.lands {t : CodeTable} {o : Option CodeTable} (h : b.TablePlaced t o)
    {user : OffsetUser} {x : Nat} (hx : t.RefersTo user x) :
    (user = .locals ∨ user = .localTypes → x ≤ 65535) ∧ ∃ a, b.Lands x a := by
  cases hx with
  | line he =>
      cases h with
      | lines h =>
          obtain ⟨e', -, he'⟩ := exists_of_forall₂ h he
          exact ⟨by simp, _, he'.start⟩
  | localEnd he ho =>
      cases h with
      | locals h =>
          obtain ⟨e', -, he'⟩ := exists_of_forall₂ h he
          exact (he'.lands ho).imp_left fun hle _ => hle
  | localTypeEnd he ho =>
      cases h with
      | localTypes h =>
          obtain ⟨e', -, he'⟩ := exists_of_forall₂ h he
          exact (he'.lands ho).imp_left fun hle _ => hle
  | position ho =>
      cases h with
      | frames h =>
          obtain ⟨a, -, hland⟩ := exists_of_forall₂ h.lands ho
          exact ⟨by simp, a, hland⟩
  | uninitialized hf ho =>
      cases h with
      | frames h =>
          obtain ⟨f', -, hf'⟩ := exists_of_forall₂ h.each hf
          have htypes := List.rel_append hf'.locals hf'.stack
          obtain ⟨t', -, ht'⟩ := exists_of_forall₂ htypes ho
          exact ⟨by simp, ht'.lands⟩

theorem PlacedIn.lands {pool : Pool} {c : CodeAttribute} (h : b.PlacedIn pool c) {user : OffsetUser}
    {x : Nat} (hx : b.RefersTo user x) :
    (user = .locals ∨ user = .localTypes → x ≤ 65535) ∧ ∃ a, b.Lands x a := by
  cases hx with
  | guard hg ho =>
      obtain ⟨g', -, hg'⟩ := exists_of_forall₂ h.guards hg
      refine ⟨by simp, ?_⟩
      simp only [Guard.offsets, List.mem_cons, List.not_mem_nil, or_false] at ho
      obtain rfl | rfl | rfl := ho
      · exact ⟨_, hg'.start⟩
      · exact ⟨_, hg'.stop⟩
      · exact ⟨_, hg'.handler⟩
  | table ht ho =>
      obtain ⟨os, hos, -, -⟩ := h.tables
      obtain ⟨o, -, table, htable, -⟩ := exists_of_forall₂ hos ht
      exact htable.lands ho

/-- The targets of a node that was laid out have a place, and 16-bit displacements fit. -/
theorem LaidOut.not_obstructed (hb : b.Anchored) {n : Node} {a : Nat} {i : Instruction}
    (h : b.LaidOut n a i) {o : Nat} (horigin : n.origin = some o) :
    (∀ t ∈ n.instruction.targets o, ∃ t', b.Follows t t') ∧
      ∀ op d t', n.instruction = .jump op d → b.Follows (o + d.toInt) t' →
        -32768 ≤ t' - a ∧ t' - a ≤ 32767 := by
  have hfollows := h.follows o horigin
  constructor
  · intro t ht
    obtain ⟨t', -, ht'⟩ := exists_of_forall₂ hfollows ht
    exact ⟨t', ht'⟩
  · rintro op d t' hn ⟨old, new, hold, hland, rfl⟩
    have hunaimed := h.unaimed_eq
    rw [hn] at hunaimed hfollows
    cases i with
    | jump op' e =>
        have haimed : b.Follows (o + d.toInt) (a + e.toInt) := (List.forall₂_cons.mp hfollows).1
        obtain ⟨old', new', hold', hland', hnew'⟩ := haimed
        obtain rfl : old = old' := by omega
        obtain rfl := hb.lands_unique hland hland'
        have hlo : -32768 ≤ e.toInt := e.minValue_le_toInt
        have hhi := e.toInt_lt
        constructor <;> omega
    | _ => cases hunaimed

section

variable {p : Instruction → Prop} {pool : Pool} {code : CodeAttribute} {loaded : Body}
  (hload : Body.decode pool code = .ok loaded) (hrevised : Revised p loaded b)

include hload hrevised

theorem obstructs_of_encode (hsize : code.code.length < 2 ^ 32) {e : LayoutError}
    (h : b.encode = .error e) : b.Obstructs e := by
  have hb := (hrevised.ordered (ordered_of_decode hload)).anchored
  have hstop : b.loadedLength < 2 ^ 32 := by
    rw [hrevised.loadedLength_eq, loadedLength_of_decode hload]
    exact hsize
  unfold encode at h
  dsimp only at h
  split at h
  · rename_i hlarge
    cases h
    exact .tooLarge hlarge
  · rename_i hlen
    obtain h | ⟨is, -, h⟩ := bind_eq_error.mp h
    · obtain ⟨⟨n, a⟩, hmem, h⟩ := exists_of_mapM_eq_error h
      exact obstructs_of_moveNode hb hstop (Nat.le_of_not_lt hlen) hmem h
    · obtain h | ⟨guards, -, h⟩ := bind_eq_error.mp h
      · obtain ⟨g, hg, h⟩ := exists_of_mapM_eq_error h
        exact obstructs_of_moveGuard hb hg h
      · obtain ⟨t, ht, h⟩ := exists_of_mapM_eq_error (map_eq_error.mp h)
        exact obstructs_of_moveNamedTable hb ht h

theorem not_obstructs_of_encode {c : CodeAttribute} (henc : b.encode = .ok c) (e : LayoutError) :
    ¬b.Obstructs e := by
  intro hobstructs
  have hb := (hrevised.ordered (ordered_of_decode hload)).anchored
  have hplaced := placedIn_of_encode hload hrevised henc
  obtain ⟨is, hlaid, -⟩ := exists_laidOut hb henc
  cases hobstructs with
  | tooLarge hlarge =>
      have hle := (encode_eq_ok_iff.mp henc).1
      omega
  | target hn horigin ht hplace =>
      rw [← zip_addresses_fst b] at hn
      obtain ⟨⟨n, a⟩, hmem, rfl⟩ := List.mem_map.mp hn
      obtain ⟨i, -, hi⟩ := exists_of_forall₂ hlaid hmem
      obtain ⟨t', x, a', hx, hland, -⟩ := (hi.not_obstructed hb horigin).1 _ ht
      exact hplace x hx (hasPlace_iff.mpr ⟨a', hland⟩)
  | displacement hmem ht hfar =>
      obtain ⟨i, -, hi⟩ := exists_of_forall₂ hlaid hmem
      have hfits := (hi.not_obstructed hb rfl).2 _ _ _ rfl ht
      omega
  | offset ho hplace => exact hplace (hasPlace_iff.mpr (hplaced.lands ho).2)
  | range ho huser hlarge =>
      have hle := (hplaced.lands ho).1 huser
      omega

/-- However a loaded body was spliced, also with nothing in the place of some of its nodes: it is laid
out unless something stands in the way, and an error names just that. Whatever is laid out is as long as
its layout says and holds the guards and tables in their new places, which are inside the new code and
have kept their order. The loaded code is one whose length a file can state. -/
theorem encode_fails_iff_obstructed (hsize : code.code.length < 2 ^ 32) :
    ((∃ e, b.encode = .error e) ↔ ∃ e, b.Obstructs e) ∧
      (∀ e, b.encode = .error e → b.Obstructs e) ∧
      (∀ c, b.encode = .ok c → c.code.length = b.length ∧ b.PlacedIn pool c) ∧
      ∀ o a o' a', b.Lands o a → b.Lands o' a' → a ≤ b.length ∧ (a < a' ↔ o < o') := by
  have horder := hrevised.ordered (ordered_of_decode hload)
  have hobstructs : ∀ e, b.encode = .error e → b.Obstructs e :=
    fun _ => obstructs_of_encode hload hrevised hsize
  refine ⟨⟨fun ⟨e, h⟩ => ⟨e, hobstructs e h⟩, ?_⟩, hobstructs, fun c henc => ⟨?_, ?_⟩, ?_⟩
  · rintro ⟨e, he⟩
    cases henc : b.encode with
    | error e' => exact ⟨e', rfl⟩
    | ok c => exact absurd he (not_obstructs_of_encode hload hrevised henc e)
  · obtain ⟨is, hlaid, hcode⟩ := exists_laidOut horder.anchored henc
    rw [hcode]
    exact length_encode_of_laidOut hlaid
  · exact placedIn_of_encode hload hrevised henc
  · exact fun o a o' a' hland hland' => ⟨hland.le_length, horder.lands_lt_iff hland hland'⟩

end

/-- The body of the jumps with the `Nop` taken out that both of them lead to. -/
def hurdleCut : Body := hurdleBody.splice 1 []

/-- Without the `Nop` the first jump has no target. With something in its place nothing is in the way. -/
theorem encode_fails_iff_obstructed_hurdle :
    hurdle.code.length < 2 ^ 32 ∧ Body.decode ⟨1, #[]⟩ hurdle = .ok hurdleBody ∧
      Revised Straight hurdleBody hurdleCut ∧ Revised Straight hurdleBody hurdleSpliced ∧
      hurdleCut.encode = .error (.branch 0 (.unmappedTarget 3)) ∧
      hurdleCut.Obstructs (.branch 0 (.unmappedTarget 3)) ∧
      hurdleSpliced.encode = .ok hurdleEncoded ∧ ¬∃ e, hurdleSpliced.Obstructs e := by
  have hsize : hurdle.code.length < 2 ^ 32 := by decide
  have hload : Body.decode ⟨1, #[]⟩ hurdle = .ok hurdleBody := by cbv
  have hcut : Revised Straight hurdleBody hurdleCut := .single ⟨1, [], by decide, by simp, rfl⟩
  have hspliced : Revised Straight hurdleBody hurdleSpliced := by
    refine .single ⟨1, [.pushNull, .pop], by decide, ?_, rfl⟩
    simp only [List.forall_mem_cons]
    exact ⟨rfl, rfl, by simp⟩
  have herror : hurdleCut.encode = .error (.branch 0 (.unmappedTarget 3)) := by cbv
  have henc : hurdleSpliced.encode = .ok hurdleEncoded := by cbv
  refine ⟨hsize, hload, hcut, hspliced, herror, ?_, henc, ?_⟩
  · exact (encode_fails_iff_obstructed hload hcut hsize).2.1 _ herror
  · rw [← (encode_fails_iff_obstructed hload hspliced hsize).1, henc]
    rintro ⟨e, h⟩
    cases h

end Body

end Retrofit
