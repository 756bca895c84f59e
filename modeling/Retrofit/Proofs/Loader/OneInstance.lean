import Retrofit.Proofs.Loader.History

/-!
# One live instance of each class

What a loader remembers after a history, and which handles it has given out, can be told from the
history alone. So there is one live instance of each class that is held: everyone who loads the class
has it, and no one has it under another name or from before a release.
-/

namespace Retrofit.Loader

variable {past : List Step} {key : String}

/-- What the loader remembers after the history is what the history holds. Its handles belong to one
class each. -/
structure Tracks (past : List Step) (l : Loader) : Prop where
  held : ∀ key, l.outcomes.lookup key ≠ none ↔ Held past key
  distinct : (l.outcomes.map Prod.fst).Nodup
  given : ∀ key h, l.outcomes.lookup key = some (.ok h) → Given past key h
  bound : ∀ key h, Given past key h → h < l.instances.size
  apart : ∀ key key' h, Given past key h → Given past key' h → key = key'

theorem mem_keys_iff (l : Loader) (key : String) :
    key ∈ l.outcomes.map Prod.fst ↔ l.outcomes.lookup key ≠ none := by
  rw [← Option.isSome_iff_ne_none, List.lookup_isSome_iff, List.mem_map]
  constructor
  · rintro ⟨p, hp, rfl⟩
    exact ⟨p, hp, BEq.rfl⟩
  · rintro ⟨p, hp, hkey⟩
    exact ⟨p, hp, (beq_iff_eq.mp hkey).symm⟩

theorem tracks_nil : Tracks [] empty where
  held _ := iff_of_false (fun h => h rfl) not_held_nil
  distinct := .nil
  given _ _ h := by cases h
  bound _ _ h := absurd h not_given_nil
  apart _ _ _ h := absurd h not_given_nil

theorem nodup_load {l : Loader} (h : (l.outcomes.map Prod.fst).Nodup) (cp : ClassPath) (s : Store)
    (name : String) : ((l.load cp s name).1.outcomes.map Prod.fst).Nodup := by
  have hnew : ∀ o : LoadOutcome, l.outcome? name = none →
      ((l.remember name o).outcomes.map Prod.fst).Nodup := by
    intro o hnone
    refine List.nodup_cons.mpr ⟨fun hmem => ?_, h⟩
    exact (l.mem_keys_iff _).mp hmem hnone
  have hload := l.loaded_load cp s name
  generalize l.load cp s name = r at hload ⊢
  cases hload with
  | known => exact h
  | notFound hnone => exact hnew _ hnone
  | malformed hnone => exact hnew _ hnone
  | found hnone => exact hnew _ hnone

namespace Tracks

/-- A handle that a load gives is a handle of the class already, or no class has it. -/
theorem given_or_new (ht : Tracks past (after past)) {cp : ClassPath} {s : Store} {name : String}
    {h : Handle} (hload : ((after past).load cp s name).2.1 = .ok h) :
    Given past (ClassName.internal name) h ∨ ∀ key, ¬Given past key h := by
  obtain hknown | ⟨rfl, -⟩ := known_or_new hload
  · exact Or.inl (ht.given _ h hknown)
  · exact Or.inr fun key hgiven => Nat.lt_irrefl _ (ht.bound key _ hgiven)

theorem load (ht : Tracks past (after past)) (cp : ClassPath) (s : Store) (name : String) :
    Tracks (past ++ [.load cp s name]) ((after past).load cp s name).1 where
  held key := by
    rw [lookup_load, held_concat]
    by_cases hkey : key = ClassName.internal name
    · rw [if_pos hkey]
      exact iff_of_true (Option.some_ne_none _) (Or.inl hkey.symm)
    · rw [if_neg hkey, ht.held key]
      constructor
      · intro h
        exact Or.inr ⟨h, id⟩
      · rintro (h | ⟨h, -⟩)
        · exact absurd h.symm hkey
        · exact h
  distinct := nodup_load ht.distinct cp s name
  given key h hlookup := by
    rw [given_concat]
    rw [lookup_load] at hlookup
    split at hlookup
    · rename_i hkey
      exact Or.inl ⟨hkey.symm, Option.some.inj hlookup⟩
    · exact Or.inr (ht.given key h hlookup)
  bound key h hgiven := by
    have hle := (after past).size_le_load cp s name
    rw [given_concat] at hgiven
    obtain ⟨rfl, hload⟩ | hgiven := hgiven
    · obtain hknown | ⟨rfl, hsize⟩ := known_or_new hload
      · exact Nat.lt_of_lt_of_le (ht.bound _ h (ht.given _ h hknown)) hle
      · rw [hsize]
        exact Nat.lt_succ_self _
    · exact Nat.lt_of_lt_of_le (ht.bound key h hgiven) hle
  apart key key' h hgiven hgiven' := by
    rw [given_concat] at hgiven hgiven'
    obtain ⟨rfl, hload⟩ | hgiven := hgiven
    · obtain ⟨rfl, -⟩ | hgiven' := hgiven'
      · rfl
      · obtain hthis | hnew := ht.given_or_new hload
        · exact ht.apart _ key' h hthis hgiven'
        · exact absurd hgiven' (hnew key')
    · obtain ⟨rfl, hload⟩ | hgiven' := hgiven'
      · obtain hthis | hnew := ht.given_or_new hload
        · exact ht.apart key _ h hgiven hthis
        · exact absurd hgiven (hnew key)
      · exact ht.apart key key' h hgiven hgiven'

theorem release (ht : Tracks past (after past)) (name : String) :
    Tracks (past ++ [.release name]) ((after past).release name) where
  held key := by
    rw [lookup_release, held_concat]
    by_cases hkey : key = ClassName.internal name
    · rw [if_pos hkey]
      refine iff_of_false (fun h => h rfl) ?_
      rintro (h | ⟨-, h⟩)
      · exact h
      · exact h hkey.symm
    · rw [if_neg hkey, ht.held key]
      constructor
      · intro h
        exact Or.inr ⟨h, Ne.symm hkey⟩
      · rintro (h | ⟨h, -⟩)
        · cases h
        · exact h
  distinct := ht.distinct.sublist (List.filter_sublist.map _)
  given key h hlookup := by
    rw [lookup_release] at hlookup
    split at hlookup
    · cases hlookup
    · exact given_concat.mpr (Or.inr (ht.given key h hlookup))
  bound key h hgiven := ht.bound key h ((given_concat.mp hgiven).resolve_left id)
  apart key key' h hgiven hgiven' := ht.apart key key' h
    ((given_concat.mp hgiven).resolve_left id) ((given_concat.mp hgiven').resolve_left id)

theorem change (ht : Tracks past (after past)) (h : Handle) (f : ClassUnit → ClassUnit) :
    Tracks (past ++ [.change h f]) ((Step.change h f).run (after past)) where
  held key := by
    rw [outcomes_change, held_concat, ht.held key]
    constructor
    · intro hheld
      exact Or.inr ⟨hheld, id⟩
    · rintro (hheld | ⟨hheld, -⟩)
      · cases hheld
      · exact hheld
  distinct := by
    rw [outcomes_change]
    exact ht.distinct
  given key h' hlookup := by
    rw [outcomes_change] at hlookup
    exact given_concat.mpr (Or.inr (ht.given key h' hlookup))
  bound key h' hgiven := by
    rw [size_change]
    exact ht.bound key h' ((given_concat.mp hgiven).resolve_left id)
  apart key key' h' hgiven hgiven' := ht.apart key key' h'
    ((given_concat.mp hgiven).resolve_left id) ((given_concat.mp hgiven').resolve_left id)

end Tracks

/-- By induction on the history. -/
theorem tracks_after (past : List Step) : Tracks past (after past) := by
  induction past using List.reverseRecOn with
  | nil => exact tracks_nil
  | append_singleton past σ ih =>
      rw [after_concat]
      cases σ with
      | load cp s name => exact ih.load cp s name
      | release name => exact ih.release name
      | change h f => exact ih.change h f

/-! ### What is given out -/

/-- The outcome is what the class path leads to at the time. An instance is as it was found, and no one
had it before. -/
inductive Fresh (past : List Step) (cp : ClassPath) (s : Store) (name : String) (l : Loader) :
    LoadOutcome → Prop
  | notFound (hbytes : cp.bytes? s name = none) : Fresh past cp s name l (.error .notFound)
  | malformed {bytes : List UInt8} {e : Malformation} (hbytes : cp.bytes? s name = some bytes)
      (he : ClassUnit.ofBytes bytes = .error e) :
      Fresh past cp s name l (.error (.malformed name e))
  | found {bytes : List UInt8} {u : ClassUnit} {h : Handle}
      (hbytes : cp.bytes? s name = some bytes) (hu : ClassUnit.ofBytes bytes = .ok u)
      (hunit : l.unit? h = some u) (hnew : ∀ key, ¬Given past key h) :
      Fresh past cp s name l (.ok h)

theorem not_outcome?_of_not_held {name : String} (h : ¬Held past (ClassName.internal name)) :
    (after past).outcome? name = none := by
  by_contra hsome
  exact h (((tracks_after past).held _).mp hsome)

theorem fresh_load {cp : ClassPath} {s : Store} {name : String}
    (h : ¬Held past (ClassName.internal name)) :
    Fresh past cp s name ((after past).load cp s name).1 ((after past).load cp s name).2.1 := by
  have hnone := not_outcome?_of_not_held h
  have hload := (after past).loaded_load cp s name
  generalize (after past).load cp s name = r at hload ⊢
  cases hload with
  | known ho =>
      rw [hnone] at ho
      cases ho
  | notFound _ hbytes => exact .notFound hbytes
  | malformed _ hbytes he => exact .malformed hbytes he
  | @found bytes u _ hbytes hu =>
      refine .found hbytes hu ?_ fun key hgiven => ?_
      · show ((after past).instances.push u)[(after past).instances.size]? = some u
        exact Array.getElem?_push_size
      · exact Nat.lt_irrefl _ ((tracks_after past).bound key _ hgiven)

/-- A handle that was given out has an instance behind it. -/
theorem Given.exists_unit {h : Handle} (hgiven : Given past key h) :
    ∃ u, (after past).unit? h = some u :=
  ⟨_, Array.getElem?_eq_getElem ((tracks_after past).bound key h hgiven)⟩

theorem load_again {cp : ClassPath} {s : Store} {name : String} {between : List Step}
    (hbetween : ∀ σ ∈ between, ¬σ.Releases (ClassName.internal name)) {name' : String}
    (hname : ClassName.internal name' = ClassName.internal name) (cp' : ClassPath) (s' : Store) :
    (((after past).load cp s name).1.runAll between).load cp' s' name' =
      (((after past).load cp s name).1.runAll between, ((after past).load cp s name).2.1, []) := by
  apply load_of_known
  rw [outcome?, hname]
  refine lookup_runAll_of_known ?_ hbetween
  rw [lookup_load, if_pos rfl]

theorem unit?_between {cp : ClassPath} {s : Store} {name : String} {h : Handle}
    (hload : ((after past).load cp s name).2.1 = .ok h) (between : List Step) :
    ∃ u, ((after past).load cp s name).1.unit? h = some u ∧
      (((after past).load cp s name).1.runAll between).unit? h = some (effects h u between) := by
  have hgiven : Given (past ++ [.load cp s name]) (ClassName.internal name) h :=
    given_concat.mpr (Or.inl ⟨rfl, hload⟩)
  obtain ⟨u, hu⟩ := hgiven.exists_unit
  rw [after_concat] at hu
  exact ⟨u, hu, unit?_runAll hu between⟩

theorem unaffected {steps : List Step} (hsteps : ∀ σ ∈ steps, ¬σ.Concerns past key) :
    ((after past).runAll steps).outcomes.lookup key = (after past).outcomes.lookup key ∧
      ∀ h, Given past key h → ((after past).runAll steps).unit? h = (after past).unit? h := by
  constructor
  · apply lookup_runAll_of_apart
    intro σ hσ
    have hnot := hsteps σ hσ
    cases σ with
    | load cp s name => exact ⟨hnot, id⟩
    | release name => exact ⟨id, hnot⟩
    | change h f => exact ⟨id, id⟩
  · intro h hgiven
    obtain ⟨u, hu⟩ := hgiven.exists_unit
    have hown : ∀ h' f, Step.change h' f ∈ steps → h' ≠ h := by
      rintro h' f hmem rfl
      exact hsteps _ hmem hgiven
    rw [unit?_runAll hu steps, effects_eq_self hown, hu]

/-- What a loader gives out after the history `past`. -/
structure OneInstance (past : List Step) : Prop where
  /-- A class that is not held is looked up, and gets an instance of its own. -/
  fresh : ∀ cp s name, ¬Held past (ClassName.internal name) →
    Fresh past cp s name ((after past).load cp s name).1 ((after past).load cp s name).2.1 ∧
      ((after past).load cp s name).2.2 = .loading name :: (cp.find? s name).2
  /-- So does a class that was released. -/
  reloaded : ∀ name between cp s name', ClassName.internal name' = ClassName.internal name →
    (∀ σ ∈ between, ¬σ.Loads (ClassName.internal name)) →
      Fresh (past ++ .release name :: between) cp s name'
        ((after (past ++ .release name :: between)).load cp s name').1
        ((after (past ++ .release name :: between)).load cp s name').2.1
  /-- A class that is loaded again before it is released has the same outcome, whatever the class path
  leads to now. Its instance is the one of the first load with all that was done to it. -/
  shared : ∀ cp s name between cp' s' name', ClassName.internal name' = ClassName.internal name →
    (∀ σ ∈ between, ¬σ.Releases (ClassName.internal name)) →
      (((after past).load cp s name).1.runAll between).load cp' s' name' =
        (((after past).load cp s name).1.runAll between, ((after past).load cp s name).2.1, []) ∧
      ∀ h, ((after past).load cp s name).2.1 = .ok h →
        ∃ u, ((after past).load cp s name).1.unit? h = some u ∧
          (((after past).load cp s name).1.runAll between).unit? h = some (effects h u between)
  /-- Between releases a class is looked up once, when it is loaded first. -/
  once : ∀ key steps, (∀ σ ∈ steps, ¬σ.Releases key) →
    (¬Held past key → (∃ σ ∈ steps, σ.Loads key) → lookups key (after past) steps = 1) ∧
      (Held past key ∨ (∀ σ ∈ steps, ¬σ.Loads key) → lookups key (after past) steps = 0)
  /-- Two classes never have the same handle. -/
  apart : ∀ key key' h, Given past key h → Given past key' h → key = key'
  /-- What does not concern a class changes neither its outcome nor any of its instances. -/
  unaffected : ∀ key steps, (∀ σ ∈ steps, ¬σ.Concerns past key) →
    ((after past).runAll steps).outcomes.lookup key = (after past).outcomes.lookup key ∧
      ∀ h, Given past key h → ((after past).runAll steps).unit? h = (after past).unit? h
  /-- The classes that are held are counted. -/
  counted : ∃ keys : List String, keys.Nodup ∧ (∀ key, key ∈ keys ↔ Held past key) ∧
    (after past).size = keys.length

/-- Whatever is done with a loader, there is one live instance of each class. -/
theorem oneInstance (past : List Step) : OneInstance past where
  fresh cp s name h := ⟨fresh_load h, events_of_new (not_outcome?_of_not_held h) cp s⟩
  reloaded name between cp s name' hname hbetween := by
    apply fresh_load
    rw [hname]
    exact not_held_of_release rfl hbetween
  shared cp s name between cp' s' name' hname hbetween :=
    ⟨load_again hbetween hname cp' s', fun _ hload => unit?_between hload between⟩
  once key steps hsteps := by
    constructor
    · intro hheld hload
      have hnone : (after past).outcomes.lookup key = none := by
        by_contra hsome
        exact hheld (((tracks_after past).held key).mp hsome)
      exact lookups_of_new hnone hsteps hload
    · rintro (hheld | hload)
      · obtain ⟨o, ho⟩ := Option.ne_none_iff_exists'.mp (((tracks_after past).held key).mpr hheld)
        exact lookups_of_known ho hsteps
      · exact lookups_of_apart hload
  apart := (tracks_after past).apart
  unaffected _ _ hsteps := unaffected hsteps
  counted := by
    refine ⟨(after past).outcomes.map Prod.fst, (tracks_after past).distinct, fun key => ?_, ?_⟩
    · rw [mem_keys_iff, (tracks_after past).held key]
    · rw [List.length_map]
      rfl

end Retrofit.Loader
