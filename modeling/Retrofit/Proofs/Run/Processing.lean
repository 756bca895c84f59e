import Retrofit.Proofs.Loader
import Retrofit.Proofs.Unit.Reverting
import Retrofit.Run

/-!
# Processing one class

What is written for a class follows from the bytes that are found for it: the class with its calls
replaced where that succeeds, and else the bytes as they were found. The loader does not matter, nor
what was done with the instance before it is put back. A class that can be decoded is written under
the name that it has itself, and one that cannot under the name that was asked for.
-/

namespace Retrofit

/-! ### Giving up on a class -/

namespace ClassUnit

/-- A class that is not marked as changed is written as the bytes that it was loaded from. -/
theorem written_of_clean {u : ClassUnit} (h : u.dirty = false) : u.written = .ok u.loaded := by
  unfold written toBytes
  rw [h]
  rfl

/-- So is a reverted class. -/
theorem written_revert (u : ClassUnit) :
    u.revert.name = u.name ∧ u.revert.loaded = u.loaded ∧ u.revert.written = .ok u.loaded := by
  unfold revert
  split
  · split
    · exact ⟨rfl, rfl, written_of_clean rfl⟩
    · exact ⟨rfl, rfl, written_of_clean rfl⟩
  · rename_i hdirty
    exact ⟨rfl, rfl, written_of_clean (Bool.eq_false_of_not_eq_true hdirty)⟩

theorem isLocal_of_written {e : Failure} (u : ClassUnit) (h : u.written = .error e) :
    e.isLocal = true := by
  unfold written at h
  split at h
  · cases h
  · cases h
    rfl

theorem substituteSites_keeps (u : ClassUnit) (maxFixedArity : Nat) (done : List Substitution)
    (told : List Event) (todo : List CallSite) :
    (u.substituteSites maxFixedArity done told todo).unit.name = u.name ∧
      (u.substituteSites maxFixedArity done told todo).unit.loaded = u.loaded := by
  induction todo generalizing u done told with
  | nil => exact ⟨rfl, rfl⟩
  | cons s todo ih =>
      rw [substituteSites]
      split
      · exact ih u _ _
      · rename_i r hr
        have hkeeps := u.patch_keeps s r
        dsimp only
        split
        · rename_i v e hpatch
          rw [hpatch] at hkeeps
          exact hkeeps
        · rename_i v hpatch
          rw [hpatch] at hkeeps
          obtain ⟨hname, hloaded⟩ := ih v _ _
          exact ⟨hname.trans hkeeps.1, hloaded.trans hkeeps.2⟩

/-- Replacing calls changes neither the name of a class nor what it was loaded from. -/
theorem substitute_keeps (u : ClassUnit) (t : Target) (maxFixedArity : Nat) :
    (u.substitute t maxFixedArity).unit.name = u.name ∧
      (u.substitute t maxFixedArity).unit.loaded = u.loaded :=
  u.substituteSites_keeps maxFixedArity [] [] _

end ClassUnit

/-! ### What is written -/

/-- What is written for a class, and what is reported of it. -/
structure Product where
  /-- The name under which it is written. -/
  name : String
  bytes : List UInt8
  substitutions : List Substitution
  passedThrough : Bool

/-- The entry of a report for the input with the given name. -/
def Product.emitted (p : Product) (root input : String) : Emitted :=
  ⟨input, Path.ofClass root p.name, p.substitutions, p.passedThrough⟩

/-- Write a class below the root. -/
def Product.emit (p : Product) (s : Store) (root input : String) : Store × Except Failure Emitted :=
  match s.write (Path.ofClass root p.name) p.bytes with
  | (s, .ok ()) => (s, .ok (p.emitted root input))
  | (s, .error e) => (s, .error (.emit (Path.ofClass root p.name) e))

/-- What is written after an attempt to replace the calls of a class. -/
def Attempt.product (a : Attempt) : Product :=
  match a.outcome, a.unit.written with
  | .ok substitutions, .ok bytes => ⟨a.unit.name, bytes, substitutions, false⟩
  | _, _ => ⟨a.unit.name, a.unit.loaded, [], true⟩

theorem Attempt.product_name (a : Attempt) : a.product.name = a.unit.name := by
  unfold product
  split <;> rfl

theorem Attempt.product_of_written {a : Attempt} {records : List Substitution} {bytes : List UInt8}
    (houtcome : a.outcome = .ok records) (hwritten : a.unit.written = .ok bytes) :
    a.product = ⟨a.unit.name, bytes, records, false⟩ := by
  unfold product
  rw [houtcome, hwritten]

/-- A class that is given up on is written as it was loaded. -/
theorem Attempt.product_of_passedThrough {a : Attempt} (h : a.product.passedThrough = true) :
    a.product.substitutions = [] ∧ a.product.bytes = a.unit.loaded := by
  revert h
  unfold product
  split
  · exact nofun
  · exact fun _ => ⟨rfl, rfl⟩

namespace Target

/-- What is written for a class that was asked for by name and found as the given bytes. -/
def produce (t : Target) (maxFixedArity : Nat) (name : String) (found : List UInt8) : Product :=
  match ClassUnit.ofBytes found with
  | .error _ => ⟨name, found, [], true⟩
  | .ok u => (u.substitute t maxFixedArity).product

/-- One class of a run, given what is found for it. -/
def process (t : Target) (maxFixedArity : Nat) (found : Option (List UInt8)) (s : Store)
    (root name : String) : Store × Except Failure Emitted :=
  match found with
  | none => (s, .error (.classNotFound name))
  | some bytes => (t.produce maxFixedArity name bytes).emit s root name

/-- What is reported for the class if nothing goes wrong with writing it. -/
def outcome (t : Target) (maxFixedArity : Nat) (found : Option (List UInt8)) (root name : String) :
    Except Failure Emitted :=
  match found with
  | none => .error (.classNotFound name)
  | some bytes => .ok ((t.produce maxFixedArity name bytes).emitted root name)

theorem toOption_outcome (t : Target) (maxFixedArity : Nat) (found : Option (List UInt8))
    (root name : String) : (t.outcome maxFixedArity found root name).toOption =
      found.map fun bytes => (t.produce maxFixedArity name bytes).emitted root name := by
  cases found <;> rfl

/-- A class that can be decoded is written under its own name. -/
theorem produce_name {t : Target} {maxFixedArity : Nat} {name : String} {found : List UInt8}
    {u : ClassUnit} (hu : ClassUnit.ofBytes found = .ok u) :
    (t.produce maxFixedArity name found).name = u.name := by
  unfold produce
  rw [hu]
  exact (Attempt.product_name _).trans (u.substitute_keeps t maxFixedArity).1

/-- A class without methods is written as it was found. -/
theorem produce_of_methods_nil {t : Target} {maxFixedArity : Nat} {name : String}
    {found : List UInt8} {u : ClassUnit} (hu : ClassUnit.ofBytes found = .ok u)
    (hmethods : u.methods = []) :
    t.produce maxFixedArity name found = ⟨u.name, found, [], false⟩ := by
  have hloads := ClassUnit.loads_of_ofBytes hu
  have hsites : sites (t.scan u) = [] := by
    unfold scan
    rw [hmethods]
    rfl
  unfold produce ClassUnit.substitute
  rw [hu]
  dsimp only
  rw [hsites]
  simp [ClassUnit.substituteSites, Attempt.product, ClassUnit.written_of_clean hloads.dirty_eq,
    hloads.loaded_eq]

end Target

/-! ### Writing it -/

namespace RunState

variable {st : RunState} {root name : String} {h : Handle}

/-- Writing a class succeeds or fails with the store, and changes nothing else. -/
theorem writeClass_cases (st : RunState) (root name : String) (bytes : List UInt8) :
    (∃ store, st.store.write (Path.ofClass root name) bytes = (store, .ok ()) ∧
      st.writeClass root name bytes = ({ st with store }, .ok (Path.ofClass root name))) ∨
    ∃ store e, st.store.write (Path.ofClass root name) bytes = (store, .error e) ∧
      st.writeClass root name bytes =
        ({ st with store }, .error (.emit (Path.ofClass root name) e)) := by
  unfold writeClass
  dsimp only
  split
  · rename_i store hwrite
    exact Or.inl ⟨store, hwrite, rfl⟩
  · rename_i store e hwrite
    exact Or.inr ⟨store, e, hwrite, rfl⟩

theorem passThrough_eq (st : RunState) (root name : String) (h : Handle) (u : ClassUnit)
    (e : Failure) :
    (st.passThrough root name h u e).1.loader = st.loader.update h u.revert ∧
      ((st.passThrough root name h u e).1.store, (st.passThrough root name h u e).2) =
        Product.emit ⟨u.name, u.loaded, [], true⟩ st.store root name := by
  obtain ⟨hname, -, hwritten⟩ := u.written_revert
  unfold passThrough RunState.emit Product.emit
  dsimp only [tell]
  rw [hwritten, hname]
  dsimp only
  rcases writeClass_cases ⟨st.store, st.loader.update h u.revert, st.events ++
      [Event.unchanged u.dottedName e]⟩ root u.name u.loaded with
    ⟨store, hstore, hwrite⟩ | ⟨store, e, hstore, hwrite⟩
  · rw [hwrite, hstore]
    exact ⟨rfl, rfl⟩
  · rw [hwrite, hstore]
    exact ⟨rfl, rfl⟩

/-- After an attempt its product is written. The instance has changed, but neither its name nor what it
was loaded from. -/
theorem finish_eq (st : RunState) (root name : String) (h : Handle) (a : Attempt) :
    (∃ v, (st.finish root name h a).1.loader = st.loader.update h v ∧ v.name = a.unit.name ∧
      v.loaded = a.unit.loaded) ∧
    ((st.finish root name h a).1.store, (st.finish root name h a).2) =
      a.product.emit st.store root name := by
  have hgiveUp (e : Failure) := passThrough_eq
    (({ st with loader := st.loader.update h a.unit } : RunState).tell a.events) root name h a.unit e
  have hreverted : (st.loader.update h a.unit).update h a.unit.revert =
      st.loader.update h a.unit.revert := by
    unfold Loader.update
    rw [Array.setIfInBounds_setIfInBounds]
  have hrevert (e : Failure) := (hgiveUp e).1.trans hreverted
  obtain ⟨hname, hloaded, -⟩ := a.unit.written_revert
  unfold finish Attempt.product
  cases a.outcome with
  | error e => exact ⟨⟨_, hrevert e, hname, hloaded⟩, (hgiveUp e).2⟩
  | ok substitutions =>
      dsimp only
      unfold RunState.emit
      cases hwritten : a.unit.written with
      | error e =>
          dsimp only
          rw [if_pos (a.unit.isLocal_of_written hwritten)]
          exact ⟨⟨_, hrevert e, hname, hloaded⟩, (hgiveUp e).2⟩
      | ok bytes =>
          dsimp only [tell, Product.emit]
          rcases writeClass_cases ⟨st.store, st.loader.update h a.unit, st.events ++ a.events⟩ root
              a.unit.name bytes with ⟨store, hstore, hwrite⟩ | ⟨store, e, hstore, hwrite⟩
          · rw [hwrite, hstore]
            exact ⟨⟨_, rfl, rfl, rfl⟩, rfl⟩
          · rw [hwrite, hstore]
            exact ⟨⟨_, rfl, rfl, rfl⟩, rfl⟩

/-- Where the attempt succeeded and its result can be laid out, the instance stays as it is then. -/
theorem unit?_finish {st : RunState} {a : Attempt} {u : ClassUnit} {records : List Substitution}
    {bytes : List UInt8} (hunit : st.loader.unit? h = some u) (houtcome : a.outcome = .ok records)
    (hwritten : a.unit.written = .ok bytes) (root name : String) :
    (st.finish root name h a).1.loader.unit? h = some a.unit := by
  have hlt := (Array.getElem?_eq_some_iff.mp hunit).1
  have hupdated : (st.loader.update h a.unit).unit? h = some a.unit :=
    Array.getElem?_setIfInBounds_self_of_lt hlt
  unfold finish RunState.emit
  rw [houtcome]
  dsimp only
  rw [hwritten]
  dsimp only [tell]
  rcases writeClass_cases ⟨st.store, st.loader.update h a.unit, st.events ++ a.events⟩ root a.unit.name
      bytes with ⟨store, -, hwrite⟩ | ⟨store, e, -, hwrite⟩
  · rw [hwrite]
    exact hupdated
  · rw [hwrite]
    exact hupdated

/-- A class that cannot be decoded is looked up again and written as it is found. -/
theorem copy_eq (st : RunState) {cp : ClassPath} {name : String} {bytes : List UInt8}
    (hfind : cp.bytes? st.store name = some bytes) (root : String) :
    (st.copy cp root name).1.loader = st.loader ∧
      ((st.copy cp root name).1.store, (st.copy cp root name).2) =
        Product.emit ⟨name, bytes, [], true⟩ st.store root name := by
  unfold copy ClassPath.find
  rcases hsearch : cp.find? st.store name with ⟨found, events⟩
  rw [ClassPath.bytes?, hsearch] at hfind
  obtain rfl : found = some bytes := hfind
  dsimp only [tell, Product.emit]
  rcases writeClass_cases ⟨st.store, st.loader, st.events ++ events⟩ root name bytes with
    ⟨store, hstore, hwrite⟩ | ⟨store, e, hstore, hwrite⟩
  · rw [hwrite, hstore]
    exact ⟨rfl, rfl⟩
  · rw [hwrite, hstore]
    exact ⟨rfl, rfl⟩

/-- What is written for a class that is found, and what processing makes of the loader. Whatever was
done with the instance, the class is written under the same name, and as it was found if it is given up
on. -/
structure ProcessedAs (st st' : RunState) (t : Target) (maxFixedArity : Nat) (root name : String)
    (o : LoadOutcome) (bytes : List UInt8) (outcome : Except Failure Emitted) (p : Product) :
    Prop where
  emitted : (st'.store, outcome) = p.emit st.store root name
  loader : st.loader.Processed o st'.loader
  name_eq : p.name = (t.produce maxFixedArity name bytes).name
  givenUp : p.passedThrough = true → p.substitutions = [] ∧ p.bytes = bytes
  produced : st.loader.Right (some bytes) o → p = t.produce maxFixedArity name bytes

theorem processLoaded_of_unit? {st : RunState} {u : ClassUnit} (hunit : st.loader.unit? h = some u)
    (s : Settings) (cp : ClassPath) (t : Target) (root name : String) :
    st.processLoaded s cp t root name (.ok h) =
      st.finish root name h (u.substitute t s.maxFixedArity) := by
  unfold processLoaded
  dsimp only
  rw [hunit]

/-- Processing a loaded class is writing something for it, if it is found. -/
theorem processLoaded_cases {st : RunState} {found : Option (List UInt8)} {o : LoadOutcome}
    (hstems : st.loader.Stems found o) {cp : ClassPath} {name : String}
    (hfind : cp.bytes? st.store name = found) (s : Settings) (t : Target) (root : String) :
    (found = none ∧ st.processLoaded s cp t root name o = (st, .error (.classNotFound name))) ∨
      ∃ bytes p, found = some bytes ∧
        ProcessedAs st (st.processLoaded s cp t root name o).1 t s.maxFixedArity root name o bytes
          (st.processLoaded s cp t root name o).2 p := by
  cases hstems with
  | notFound => exact Or.inl ⟨rfl, rfl⟩
  | @malformed bytes first e he =>
      have hprocess : st.processLoaded s cp t root name (.error (.malformed first e)) =
          (st.tell [.copied ((LoadFailure.malformed first e).toFailure name)]).copy cp root name := rfl
      obtain ⟨hloader, hresult⟩ := copy_eq
        (st.tell [.copied ((LoadFailure.malformed first e).toFailure name)]) hfind root
      rw [hprocess]
      refine Or.inr ⟨bytes, ⟨name, bytes, [], true⟩, rfl, ?_⟩
      constructor
      · exact hresult
      · rw [hloader]
        exact .failed
      · rw [Target.produce, he]
      · exact fun _ => ⟨rfl, rfl⟩
      · intro _
        rw [Target.produce, he]
  | @loaded u v h hu hunit hname =>
      obtain ⟨⟨w, hloader, hname', hloaded'⟩, hresult⟩ := st.finish_eq root name h
        (v.substitute t s.maxFixedArity)
      obtain ⟨hkeeps, hkeeps'⟩ := v.substitute_keeps t s.maxFixedArity
      rw [processLoaded_of_unit? hunit]
      refine Or.inr ⟨v.loaded, (v.substitute t s.maxFixedArity).product, rfl, ?_⟩
      constructor
      · exact hresult
      · rw [hloader]
        exact .changed hunit (hname'.trans hkeeps) (hloaded'.trans hkeeps')
      · rw [Attempt.product_name, hkeeps, hname, Target.produce_name hu]
      · intro hpassed
        obtain ⟨hnil, hbytes⟩ := Attempt.product_of_passedThrough hpassed
        exact ⟨hnil, hbytes.trans hkeeps'⟩
      · intro hright
        cases hright with
        | loaded hu' hunit' =>
            rw [hunit, Option.some_inj] at hunit'
            rw [Target.produce, hu', hunit']

/-- Processing a class of which the right thing is remembered is writing what is found for it; the
loader only saves the looking up. -/
theorem processLoaded_eq {st : RunState} {found : Option (List UInt8)} {o : LoadOutcome}
    (hright : st.loader.Right found o) {cp : ClassPath} {name : String}
    (hfind : cp.bytes? st.store name = found) (s : Settings) (t : Target) (root : String) :
    ((st.processLoaded s cp t root name o).1.store, (st.processLoaded s cp t root name o).2) =
        t.process s.maxFixedArity found st.store root name ∧
      st.loader.Processed o (st.processLoaded s cp t root name o).1.loader := by
  rcases processLoaded_cases hright.stems hfind s t root with ⟨rfl, heq⟩ | ⟨bytes, p, rfl, h⟩
  · cases hright with
    | notFound =>
        rw [heq]
        exact ⟨rfl, .failed⟩
  · rw [h.emitted, h.produced hright]
    exact ⟨rfl, h.loader⟩

/-- So is processing a class from the start. -/
theorem processClass_eq {find : String → Option (List UInt8)}
    (hl : st.loader.Faithful find fun _ => False) {cp : ClassPath}
    (hfind : cp.bytes? st.store name = find (ClassName.internal name)) (s : Settings) (t : Target)
    (root : String) :
    (st.processClass s cp t root name).1.loader.Faithful find (· = ClassName.internal name) ∧
      ((st.processClass s cp t root name).1.store, (st.processClass s cp t root name).2) =
        t.process s.maxFixedArity (find (ClassName.internal name)) st.store root name := by
  obtain ⟨hload, hlookup⟩ := hl.load hfind
  have hright := hload.right _ _ id hlookup
  unfold processClass load
  rcases hloaded : st.loader.load cp st.store name with ⟨l, o, events⟩
  rw [hloaded] at hload hlookup hright
  dsimp only at hload hlookup hright ⊢
  replace hright : (({ st with loader := l } : RunState).tell events).loader.Right _ o := hright
  obtain ⟨hresult, hprocessed⟩ := processLoaded_eq hright hfind s t root
  refine ⟨?_, hresult⟩
  replace hload : l.Faithful find (· = ClassName.internal name) := hload.mono fun _ => False.elim
  refine hload.processed hprocessed fun key i hi hkey => ?_
  rw [hi] at hlookup
  exact hload.distinct key _ i hkey hlookup

end RunState

end Retrofit
