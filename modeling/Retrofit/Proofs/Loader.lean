import Mathlib.Data.List.Basic
import Retrofit.Loader
import Retrofit.Proofs.Unit.Loading

/-!
# Loaders that remember rightly

What a loader remembers of a class is what looking the class up comes to, as long as no one has
changed the instance that it gave out. Two classes never share an instance, so changing one leaves
what is remembered of the others right. Even a changed instance still has the bytes that were found
for its class.
-/

namespace Retrofit

theorem ClassName.internal_internal (name : String) : internal (internal name) = internal name := by
  apply String.toList_inj.mp
  simp only [internal, String.toList_map, List.map_map]
  apply List.map_congr_left
  intro c _
  by_cases hc : c = '.' <;> simp [hc]

/-- The bytes that are found for a class. -/
def ClassPath.bytes? (cp : ClassPath) (s : Store) (name : String) : Option (List UInt8) :=
  (cp.find? s name).1

/-- Either spelling of a name finds the same. -/
theorem ClassPath.bytes?_internal (cp : ClassPath) (s : Store) (name : String) :
    cp.bytes? s (ClassName.internal name) = cp.bytes? s name := by
  unfold bytes? find?
  induction cp.sources with
  | nil => rfl
  | cons source sources ih =>
      have hentry : entryName (ClassName.internal name) = entryName name := by
        rw [entryName, entryName, ClassName.internal_internal]
      unfold search
      rw [hentry]
      split
      · rfl
      · exact ih
      · exact ih

/-- What is in archives does not depend on the store. -/
theorem ClassPath.bytes?_of_archives {cp : ClassPath}
    (h : ∀ source ∈ cp.sources, ∃ path content, source = .archive path content) (s s' : Store)
    (name : String) : cp.bytes? s name = cp.bytes? s' name := by
  unfold bytes? find?
  generalize cp.sources = sources at h ⊢
  induction sources with
  | nil => rfl
  | cons source sources ih =>
      obtain ⟨⟨path, content, rfl⟩, hsources⟩ := List.forall_mem_cons.mp h
      have hread : (Source.archive path content).read? s (entryName name) =
          (Source.archive path content).read? s' (entryName name) := rfl
      unfold search
      rw [hread]
      split
      · rfl
      · exact ih hsources
      · exact ih hsources

namespace Loader

/-- What loading can come to: the outcome that is remembered, or what the class path leads to, which is
then remembered. -/
inductive Loaded (l : Loader) (cp : ClassPath) (s : Store) (name : String) :
    Loader × LoadOutcome × List Event → Prop
  | known {o : LoadOutcome} (ho : l.outcome? name = some o) : Loaded l cp s name (l, o, [])
  | notFound (hnew : l.outcome? name = none) (hbytes : cp.bytes? s name = none) :
      Loaded l cp s name (l.remember name (.error .notFound), .error .notFound,
        .loading name :: (cp.find? s name).2)
  | malformed {bytes : List UInt8} {e : Malformation} (hnew : l.outcome? name = none)
      (hbytes : cp.bytes? s name = some bytes) (he : ClassUnit.ofBytes bytes = .error e) :
      Loaded l cp s name (l.remember name (.error (.malformed name e)), .error (.malformed name e),
        .loading name :: (cp.find? s name).2)
  | found {bytes : List UInt8} {u : ClassUnit} (hnew : l.outcome? name = none)
      (hbytes : cp.bytes? s name = some bytes) (hu : ClassUnit.ofBytes bytes = .ok u) :
      Loaded l cp s name ((l.add u).1.remember name (.ok l.instances.size), .ok l.instances.size,
        .loading name :: (cp.find? s name).2)

theorem loaded_load (l : Loader) (cp : ClassPath) (s : Store) (name : String) :
    l.Loaded cp s name (l.load cp s name) := by
  unfold Loader.load
  split
  · rename_i o ho
    exact .known ho
  · rename_i hnew
    split
    · rename_i events hfind
      have hloaded := Loaded.notFound (l := l) hnew (congrArg Prod.fst hfind)
      rwa [hfind] at hloaded
    · rename_i bytes events hfind
      split
      · rename_i u hu
        have hloaded := Loaded.found hnew (congrArg Prod.fst hfind) hu
        rwa [hfind] at hloaded
      · rename_i e he
        have hloaded := Loaded.malformed hnew (congrArg Prod.fst hfind) he
        rwa [hfind] at hloaded

/-- What is remembered of a class is what the bytes found for it come to. -/
inductive Right (l : Loader) : Option (List UInt8) → LoadOutcome → Prop
  | notFound : Right l none (.error .notFound)
  | malformed {bytes : List UInt8} {name : String} {e : Malformation}
      (he : ClassUnit.ofBytes bytes = .error e) : Right l (some bytes) (.error (.malformed name e))
  | loaded {bytes : List UInt8} {u : ClassUnit} {h : Handle} (hu : ClassUnit.ofBytes bytes = .ok u)
      (hunit : l.unit? h = some u) : Right l (some bytes) (.ok h)

/-- What is remembered of a class comes from the bytes found for it, and the instance has the name that
it got from them, whatever was done with it since. -/
inductive Stems (l : Loader) : Option (List UInt8) → LoadOutcome → Prop
  | notFound : Stems l none (.error .notFound)
  | malformed {bytes : List UInt8} {name : String} {e : Malformation}
      (he : ClassUnit.ofBytes bytes = .error e) : Stems l (some bytes) (.error (.malformed name e))
  | loaded {u v : ClassUnit} {h : Handle} (hu : ClassUnit.ofBytes v.loaded = .ok u)
      (hunit : l.unit? h = some v) (hname : v.name = u.name) : Stems l (some v.loaded) (.ok h)

/-- Every instance that was there is there, with its name and the bytes that it was loaded from. -/
def Retains (l l' : Loader) : Prop :=
  ∀ h u, l.unit? h = some u → ∃ v, l'.unit? h = some v ∧ v.name = u.name ∧ v.loaded = u.loaded

section

variable {l l' : Loader} {found : Option (List UInt8)} {o : LoadOutcome}

theorem Right.stems (h : l.Right found o) : l.Stems found o := by
  cases h with
  | notFound => exact .notFound
  | malformed he => exact .malformed he
  | @loaded bytes u h hu hunit =>
      have hloaded := (ClassUnit.loads_of_ofBytes hu).loaded_eq
      rw [← hloaded] at hu ⊢
      exact .loaded hu hunit rfl

/-- It stays right as long as the instance is as it was. -/
theorem Right.mono (h : l.Right found o)
    (hunits : ∀ i u, o = .ok i → l.unit? i = some u → l'.unit? i = some u) : l'.Right found o := by
  cases h with
  | notFound => exact .notFound
  | malformed he => exact .malformed he
  | loaded hu hunit => exact .loaded hu (hunits _ _ rfl hunit)

theorem Stems.mono (h : l.Stems found o) (hretains : l.Retains l') : l'.Stems found o := by
  cases h with
  | notFound => exact .notFound
  | malformed he => exact .malformed he
  | loaded hu hunit hname =>
      obtain ⟨v, hv, hname', hloaded⟩ := hretains _ _ hunit
      rw [← hloaded] at hu ⊢
      exact .loaded hu hv (hname'.trans hname)

/-- A handle that was given out leads to an instance. -/
theorem Stems.lt_size {h : Handle} (hstems : l.Stems found (.ok h)) : h < l.instances.size := by
  cases hstems with
  | loaded _ hunit => exact (Array.getElem?_eq_some_iff.mp hunit).1

theorem retains_of_units (h : ∀ i u, l.unit? i = some u → l'.unit? i = some u) : l.Retains l' :=
  fun i u hu => ⟨u, h i u hu, rfl, rfl⟩

/-- A new instance leaves the others as they are. -/
theorem unit?_add (u : ClassUnit) {i : Handle} {v : ClassUnit} (hv : l.unit? i = some v) :
    (l.add u).1.unit? i = some v := by
  have hlt := (Array.getElem?_eq_some_iff.mp hv).1
  show (l.instances.push u)[i]? = some v
  rw [Array.getElem?_push_lt hlt]
  exact (Array.getElem?_eq_getElem hlt).symm.trans hv

theorem unit?_update_of_ne (u : ClassUnit) {h i : Handle} (hne : h ≠ i) :
    (l.update h u).unit? i = l.unit? i :=
  Array.getElem?_setIfInBounds_ne hne

/-- An instance may change as long as it is known where it comes from. -/
theorem retains_update {h : Handle} {u : ClassUnit}
    (hsame : ∀ v, l.unit? h = some v → u.name = v.name ∧ u.loaded = v.loaded) :
    l.Retains (l.update h u) := by
  intro i v hv
  by_cases hi : h = i
  · subst hi
    have hlt := (Array.getElem?_eq_some_iff.mp hv).1
    refine ⟨u, ?_, hsame v hv⟩
    unfold update unit?
    exact Array.getElem?_setIfInBounds_self_of_lt hlt
  · exact ⟨v, (unit?_update_of_ne u hi).trans hv, rfl, rfl⟩

end

/-- What is remembered comes from what `find` finds under each internal name, and is right with the
exception of the names for which `touched` holds. No two names have one instance. -/
structure Faithful (find : String → Option (List UInt8)) (touched : String → Prop) (l : Loader) :
    Prop where
  right : ∀ key o, ¬touched key → l.outcomes.lookup key = some o → l.Right (find key) o
  stems : ∀ key o, l.outcomes.lookup key = some o → l.Stems (find key) o
  distinct : ∀ key key' h, l.outcomes.lookup key = some (.ok h) →
    l.outcomes.lookup key' = some (.ok h) → key = key'

theorem faithful_empty (find : String → Option (List UInt8)) :
    empty.Faithful find fun _ => False := by
  constructor <;> intros <;> contradiction

variable {find : String → Option (List UInt8)} {touched touched' : String → Prop} {l : Loader}

theorem Faithful.bound (hl : l.Faithful find touched) {key : String} {h : Handle}
    (hlookup : l.outcomes.lookup key = some (.ok h)) : h < l.instances.size :=
  (hl.stems key _ hlookup).lt_size

theorem Faithful.mono (h : l.Faithful find touched) (himp : ∀ key, touched key → touched' key) :
    l.Faithful find touched' :=
  ⟨fun key o hkey => h.right key o fun hold => hkey (himp key hold), h.stems, h.distinct⟩

theorem lookup_remember (l : Loader) (name : String) (o : LoadOutcome) (key : String) :
    (l.remember name o).outcomes.lookup key =
      if key = ClassName.internal name then some o else l.outcomes.lookup key := by
  show List.lookup key ((ClassName.internal name, o) :: l.outcomes) = _
  rw [List.lookup_cons]
  by_cases hkey : key = ClassName.internal name
  · simp [hkey]
  · simp [hkey, beq_false_of_ne hkey]

theorem lookup_release (l : Loader) (name key : String) :
    (l.release name).outcomes.lookup key =
      if key = ClassName.internal name then none else l.outcomes.lookup key := by
  unfold release
  dsimp only
  induction l.outcomes with
  | nil => simp
  | cons p ps ih =>
      by_cases hp : p.1 = ClassName.internal name
      · rw [List.filter_cons_of_neg (by simp [hp]), ih, List.lookup_cons, hp]
        by_cases hkey : key = ClassName.internal name
        · simp [hkey]
        · simp [hkey, beq_false_of_ne hkey]
      · rw [List.filter_cons_of_pos (by simp [hp]), List.lookup_cons, List.lookup_cons, ih]
        by_cases hkey : key = ClassName.internal name
        · simp [hkey, beq_false_of_ne (Ne.symm hp)]
        · simp [hkey]

/-- A released name is remembered rightly, as it is not remembered at all. -/
theorem Faithful.release {name : String} (h : l.Faithful find touched)
    (himp : ∀ key, touched key → key ≠ ClassName.internal name → touched' key) :
    (l.release name).Faithful find touched' := by
  have hlookup {key : String} {o : LoadOutcome} (hkey : (l.release name).outcomes.lookup key = some o) :
      key ≠ ClassName.internal name ∧ l.outcomes.lookup key = some o := by
    rw [lookup_release] at hkey
    split at hkey
    · cases hkey
    · rename_i hne
      exact ⟨hne, hkey⟩
  constructor
  · intro key o hkey ho
    obtain ⟨hne, ho⟩ := hlookup ho
    exact (h.right key o (fun hold => hkey (himp key hold hne)) ho).mono fun _ _ _ hunit => hunit
  · intro key o ho
    exact (h.stems key o (hlookup ho).2).mono (retains_of_units fun _ _ hunit => hunit)
  · exact fun key key' i hkey hkey' => h.distinct key key' i (hlookup hkey).2 (hlookup hkey').2

/-- Changing an instance makes wrong no more than what is remembered under the name that has it. -/
theorem Faithful.update {h : Handle} (hl : l.Faithful find touched)
    (htouched : ∀ key, l.outcomes.lookup key = some (.ok h) → touched key) {u : ClassUnit}
    (hsame : ∀ v, l.unit? h = some v → u.name = v.name ∧ u.loaded = v.loaded) :
    (l.update h u).Faithful find touched := by
  constructor
  · intro key o hkey hlookup
    refine (hl.right key o hkey hlookup).mono fun i v hi hunit => ?_
    have hother : h ≠ i := by
      rintro rfl
      rw [hi] at hlookup
      exact hkey (htouched key hlookup)
    exact (unit?_update_of_ne u hother).trans hunit
  · exact fun key o hlookup => (hl.stems key o hlookup).mono (retains_update hsame)
  · exact hl.distinct

/-- A loader after the class of an outcome was processed: at most its instance has changed, but neither
its name nor where it comes from. -/
inductive Processed (l : Loader) : LoadOutcome → Loader → Prop
  | failed {e : LoadFailure} : Processed l (.error e) l
  | changed {h : Handle} {u v : ClassUnit} (hunit : l.unit? h = some u)
      (hname : v.name = u.name) (hloaded : v.loaded = u.loaded) : Processed l (.ok h) (l.update h v)

section

variable {l' : Loader} {o : LoadOutcome}

theorem Processed.outcomes_eq (h : Processed l o l') : l'.outcomes = l.outcomes := by
  cases h <;> rfl

theorem Processed.unit?_of_ne (h : Processed l o l') {i : Handle} (hi : o ≠ .ok i) :
    l'.unit? i = l.unit? i := by
  cases h with
  | failed => rfl
  | changed => exact unit?_update_of_ne _ fun heq => hi (by rw [heq])

theorem Processed.retains (h : Processed l o l') : l.Retains l' := by
  cases h with
  | failed => exact retains_of_units fun _ _ hu => hu
  | changed hunit hname hloaded =>
      refine retains_update fun u' hu' => ?_
      rw [hunit, Option.some_inj] at hu'
      rw [← hu']
      exact ⟨hname, hloaded⟩

/-- Processing a class makes wrong no more than what is remembered under the name that has its
instance. -/
theorem Faithful.processed (hl : l.Faithful find touched) (h : Processed l o l')
    (htouched : ∀ key i, o = .ok i → l.outcomes.lookup key = some (.ok i) → touched key) :
    l'.Faithful find touched := by
  cases h with
  | failed => exact hl
  | changed hunit hname hloaded =>
      refine hl.update (fun key => htouched key _ rfl) fun u' hu' => ?_
      rw [hunit, Option.some_inj] at hu'
      rw [← hu']
      exact ⟨hname, hloaded⟩

end

/-- A new instance belongs to no name yet. -/
theorem Faithful.add (hl : l.Faithful find touched) (u : ClassUnit) :
    (l.add u).1.Faithful find touched := by
  constructor
  · exact fun key o hkey hlookup =>
      (hl.right key o hkey hlookup).mono fun _ _ _ hunit => unit?_add u hunit
  · exact fun key o hlookup =>
      (hl.stems key o hlookup).mono (retains_of_units fun _ _ hunit => unit?_add u hunit)
  · exact hl.distinct

/-- What is right may be remembered, an instance only under one name. -/
theorem Faithful.remember (hl : l.Faithful find touched) {name : String} {o : LoadOutcome}
    (hright : l.Right (find (ClassName.internal name)) o)
    (hfresh : ∀ key i, o = .ok i → l.outcomes.lookup key ≠ some (.ok i)) :
    (l.remember name o).Faithful find touched := by
  constructor
  · intro key o' hkey hlookup
    rw [lookup_remember] at hlookup
    split at hlookup
    · rename_i heq
      cases hlookup
      rw [heq]
      exact hright.mono fun _ _ _ hunit => hunit
    · exact (hl.right key o' hkey hlookup).mono fun _ _ _ hunit => hunit
  · intro key o' hlookup
    rw [lookup_remember] at hlookup
    split at hlookup
    · rename_i heq
      cases hlookup
      rw [heq]
      exact hright.stems.mono (retains_of_units fun _ _ hunit => hunit)
    · exact (hl.stems key o' hlookup).mono (retains_of_units fun _ _ hunit => hunit)
  · intro key key' i hkey hkey'
    rw [lookup_remember] at hkey hkey'
    split at hkey
    · rename_i heq
      split at hkey'
      · rename_i heq'
        exact heq.trans heq'.symm
      · cases hkey
        exact absurd hkey' (hfresh key' i rfl)
    · split at hkey'
      · cases hkey'
        exact absurd hkey (hfresh key i rfl)
      · exact hl.distinct key key' i hkey hkey'

theorem load_of_known {name : String} {o : LoadOutcome} (h : l.outcome? name = some o)
    (cp : ClassPath) (s : Store) : l.load cp s name = (l, o, []) := by
  rw [Loader.load, h]

theorem lookup_load (l : Loader) (cp : ClassPath) (s : Store) (name key : String) :
    (l.load cp s name).1.outcomes.lookup key =
      if key = ClassName.internal name then some (l.load cp s name).2.1
      else l.outcomes.lookup key := by
  have hload := l.loaded_load cp s name
  generalize l.load cp s name = r at hload ⊢
  cases hload with
  | known ho =>
      split
      · rename_i hkey
        rw [hkey]
        exact ho
      · rfl
  | notFound => exact lookup_remember l name _ key
  | malformed => exact lookup_remember l name _ key
  | found => exact lookup_remember _ name _ key

/-- Loading changes no instance. -/
theorem unit?_load {h : Handle} {u : ClassUnit} (hu : l.unit? h = some u) (cp : ClassPath) (s : Store)
    (name : String) : (l.load cp s name).1.unit? h = some u := by
  have hload := l.loaded_load cp s name
  generalize l.load cp s name = r at hload ⊢
  cases hload with
  | known | notFound | malformed => exact hu
  | found => exact unit?_add _ hu

/-- A load gives a handle that is remembered, or the first one that is free. -/
theorem known_or_new {cp : ClassPath} {s : Store} {name : String} {h : Handle}
    (hload : (l.load cp s name).2.1 = .ok h) :
    l.outcomes.lookup (ClassName.internal name) = some (.ok h) ∨
      h = l.instances.size ∧ (l.load cp s name).1.instances.size = l.instances.size + 1 := by
  have hloaded := l.loaded_load cp s name
  generalize l.load cp s name = r at hloaded hload ⊢
  cases hloaded with
  | known ho =>
      cases hload
      exact Or.inl ho
  | notFound => cases hload
  | malformed => cases hload
  | found =>
      cases hload
      exact Or.inr ⟨rfl, Array.size_push _⟩

/-- Loading gives what is remembered, or what looking up comes to, and remembers it. -/
theorem Faithful.load (hl : l.Faithful find touched) {cp : ClassPath} {s : Store} {name : String}
    (hfind : cp.bytes? s name = find (ClassName.internal name)) :
    (l.load cp s name).1.Faithful find touched ∧
      (l.load cp s name).1.outcomes.lookup (ClassName.internal name) =
        some (l.load cp s name).2.1 := by
  have hload := l.loaded_load cp s name
  generalize l.load cp s name = r at hload ⊢
  cases hload with
  | known ho => exact ⟨hl, ho⟩
  | notFound hnew hbytes =>
      refine ⟨hl.remember ?_ (fun key i ho => by cases ho), ?_⟩
      · rw [← hfind, hbytes]
        exact .notFound
      · rw [lookup_remember, if_pos rfl]
  | malformed hnew hbytes he =>
      refine ⟨hl.remember ?_ (fun key i ho => by cases ho), ?_⟩
      · rw [← hfind, hbytes]
        exact .malformed he
      · rw [lookup_remember, if_pos rfl]
  | @found bytes u hnew hbytes hu =>
      refine ⟨(hl.add u).remember ?_ ?_, ?_⟩
      · rw [← hfind, hbytes]
        refine .loaded hu ?_
        show (l.instances.push u)[l.instances.size]? = some u
        exact Array.getElem?_push_size
      · intro key i hi hlookup
        cases hi
        exact absurd (hl.bound hlookup) (Nat.lt_irrefl _)
      · rw [lookup_remember, if_pos rfl]

end Loader

end Retrofit
