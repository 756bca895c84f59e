import Mathlib.Data.List.Induction
import Retrofit.Proofs.Store

/-!
# Names in a store

In a well-named store everything stands in a directory and has a name of its own that a path can
spell. Writing keeps a store well named, whether it succeeds or not. So the names on the way down to
something lead to it.
-/

namespace Retrofit.Store

/-- The name can be in a directory, and a path can have it between two slashes. -/
structure ProperName (name : String) : Prop where
  proper : Path.Proper name.toList
  noSlash : '/' ∉ name.toList
  noNul : '\x00' ∉ name.toList
  short : name.utf8ByteSize ≤ nameLimit

theorem ProperName.of_not_stays {name : String} (hstay : ¬(name = "" ∨ name = "."))
    (hparent : name ≠ "..") (hslash : '/' ∉ name.toList) (hnul : '\x00' ∉ name.toList)
    (hlength : name.utf8ByteSize ≤ nameLimit) : ProperName name := by
  obtain ⟨hempty, hself⟩ := not_or.mp hstay
  refine ⟨⟨?_, ?_, ?_⟩, hslash, hnul, hlength⟩
  · simpa using hempty
  · exact fun heq => hself (String.toList_inj.mp heq)
  · exact fun heq => hparent (String.toList_inj.mp heq)

theorem ProperName.not_stays {name : String} (h : ProperName name) :
    ¬(name = "" ∨ name = ".") ∧ name ≠ ".." := by
  obtain ⟨hne, hself, hparent⟩ := h.proper
  refine ⟨?_, ?_⟩
  · rintro (rfl | rfl)
    · exact hne rfl
    · exact hself rfl
  · rintro rfl
    exact hparent rfl

/-- Whatever is in the store is in a directory, under a proper name. -/
def WellNamed (s : Store) : Prop :=
  ∀ place name item, s.item? (place ++ [name]) = some item →
    s.item? place = some .directory ∧ ProperName name

namespace WellNamed

variable {s s' : Store} {place : Place} {name : String} {item : Item}

/-! ### Writing -/

/-- A store with nothing but its root. -/
theorem empty : (Store.empty []).WellNamed := by
  intro place name item hitem
  rw [item?_empty, if_neg (by simp)] at hitem
  cases hitem

theorem put (h : s.WellNamed) (hplace : s.item? place = some .directory) (hname : ProperName name)
    (hitem : item = .directory ∨ s.item? (place ++ [name]) ≠ some .directory) :
    (s.put (place ++ [name]) item).WellNamed := by
  -- Directories stay directories, so what is in them stays in them.
  have hkept : ∀ p, s.item? p = some .directory →
      (s.put (place ++ [name]) item).item? p = some .directory := by
    intro p hp
    rw [item?_put (by simp)]
    split
    · rename_i heq
      subst heq
      rw [hitem.resolve_right (not_not_intro hp)]
    · exact hp
  intro place' name' item' hitem'
  rw [item?_put (by simp)] at hitem'
  split at hitem'
  · rename_i heq
    obtain ⟨rfl, hlast⟩ := List.append_inj' heq rfl
    cases hlast
    exact ⟨hkept _ hplace, hname⟩
  · obtain ⟨hplace', hname'⟩ := h _ _ _ hitem'
    exact ⟨hkept _ hplace', hname'⟩

theorem makeDirectories {pieces : List String} (h : s.WellNamed)
    (hpieces : ∀ piece ∈ pieces, '/' ∉ piece.toList ∧ '\x00' ∉ piece.toList) :
    (s.makeDirectories place pieces).1.WellNamed := by
  induction pieces generalizing s place with
  | nil =>
      unfold Store.makeDirectories
      split <;> exact h
  | cons piece pieces ih =>
      obtain ⟨⟨hslash, hnul⟩, hrest⟩ := List.forall_mem_cons.mp hpieces
      rw [Store.makeDirectories]
      split
      · exact ih h hrest
      · rename_i hmissing
        obtain ⟨hplace, hstay, hparent, hlength, -⟩ := step_eq_notFound hmissing
        have hproper : ProperName piece := .of_not_stays hstay hparent hslash hnul hlength
        exact ih (h.put hplace hproper (Or.inl rfl)) hrest
      · exact h

theorem writeAt {directory : Place} {bytes : List UInt8} (h : s.WellNamed)
    (hdirectory : s.item? directory = some .directory) (hslash : '/' ∉ name.toList)
    (hnul : '\x00' ∉ name.toList) (hwritten : s.writeAt directory name bytes = .ok s') :
    s'.WellNamed := by
  obtain ⟨hstay, hparent, hlength, hfree, rfl⟩ := writeAt_eq_ok hwritten
  exact h.put hdirectory (.of_not_stays hstay hparent hslash hnul hlength) (Or.inr hfree)

/-- A store stays well named, even where a write fails half way. -/
theorem write (h : s.WellNamed) (path : String) (bytes : List UInt8) :
    (s.write path bytes).1.WellNamed := by
  rcases hok : s.start path with e | ⟨place, names⟩
  · rw [Store.write, hok]
    exact h
  have hstart : s.start path = .ok (s.origin path, pieces path) := by
    obtain ⟨rfl, rfl⟩ := start_eq_ok hok
    exact hok
  obtain ⟨hnul, -⟩ := start_eq_ok_iff.mp hstart
  have hnames : ∀ name ∈ pieces path, '/' ∉ name.toList ∧ '\x00' ∉ name.toList := by
    intro name hname
    obtain ⟨p, hp, rfl⟩ := List.mem_map.mp hname
    rw [String.toList_ofList]
    refine ⟨Path.not_mem_of_mem_split hp, fun hmem => hnul ?_⟩
    rw [← Path.join_split path.toList]
    exact Path.mem_join hp hmem
  obtain ⟨name, hpieces⟩ := pieces_eq path
  have hlast : (pieces path).getLastD "" = name := by
    rw [hpieces, List.getLastD_eq_getLast?, List.getLast?_concat, Option.getD_some]
  rw [hpieces, List.forall_mem_append, List.forall_mem_singleton] at hnames
  obtain ⟨hahead, hslash, hnulName⟩ := hnames
  have hmake : (s.makeDirectories (s.origin path) (pieces path).dropLast).1.WellNamed :=
    h.makeDirectories hahead
  rw [Store.write, hstart]
  dsimp only
  split
  · rename_i hmade
    rw [hmade] at hmake
    exact hmake
  · rename_i hmade
    rw [hmade] at hmake
    split
    · rename_i hwritten
      obtain ⟨-, hdirectory, -⟩ := makeDirectories_eq_ok hmade
      rw [hlast] at hwritten
      exact hmake.writeAt hdirectory hslash hnulName hwritten
    · exact hmake

/-! ### Walking down -/

/-- The names on the way down to something lead to it. -/
theorem walk {names : List String} (h : s.WellNamed)
    (hitem : s.item? (place ++ names) = some item) : s.walk place names = .ok (place ++ names) := by
  induction names using List.reverseRecOn generalizing item with
  | nil => rw [Store.walk, List.append_nil]
  | append_singleton names name ih =>
      rw [← List.append_assoc] at hitem ⊢
      obtain ⟨hdirectory, hname⟩ := h _ _ _ hitem
      obtain ⟨hstay, hparent⟩ := hname.not_stays
      rw [walk_append (ih hdirectory), Store.walk,
        step_of_item? hdirectory hstay hparent hname.short hitem]
      rfl

theorem properName {names : List String} (h : s.WellNamed)
    (hitem : s.item? (place ++ names) = some item) : ∀ name ∈ names, ProperName name := by
  induction names using List.reverseRecOn generalizing item with
  | nil => simp
  | append_singleton names name ih =>
      rw [← List.append_assoc] at hitem
      obtain ⟨hdirectory, hname⟩ := h _ _ _ hitem
      exact List.forall_mem_append.mpr ⟨ih hdirectory, by simpa using hname⟩

end WellNamed

end Retrofit.Store
