import Retrofit.Proofs.Outcome
import Retrofit.Proofs.Path
import Retrofit.Store

/-!
# What writing keeps

A walk that succeeds leads where its pieces say, whatever is in the store. A write that succeeds puts
its file there and takes nothing away: the directories stay directories and all other files stay as
they are. So what was read once is read again until its own place is written.
-/

namespace Retrofit.Store

/-! ### Places of paths -/

/-- Where a piece leads from a place. -/
def advance (place : Place) (piece : String) : Place :=
  if piece = "" ∨ piece = "." then place
  else if piece = ".." then place.dropLast
  else place ++ [piece]

/-- Where a path starts. -/
def origin (s : Store) (path : String) : Place :=
  if Path.isAbsolute path.toList then [] else s.workingDirectory

/-- The pieces of a path. -/
def pieces (path : String) : List String := (Path.split path.toList).map String.ofList

/-- Where a path leads if it leads anywhere. -/
def placeOf (s : Store) (path : String) : Place :=
  ((Path.split path.toList).map String.ofList).foldl advance (s.origin path)

section

variable {s s' : Store} {place next : Place} {piece path : String} {pieces : List String}

theorem step_eq_ok (h : s.step place piece = .ok next) :
    s.item? place = some .directory ∧ next = advance place piece := by
  unfold step at h
  split at h
  · rename_i hplace
    refine ⟨hplace, ?_⟩
    unfold advance
    split at h
    · rename_i hstay
      cases h
      rw [if_pos hstay]
    rename_i hstay
    rw [if_neg hstay]
    split at h
    · rename_i hparent
      cases h
      rw [if_pos hparent]
    rename_i hparent
    rw [if_neg hparent]
    split at h
    · cases h
    split at h
    · cases h
      rfl
    · cases h
  · cases h

/-- A name is missing in a directory only if it is a proper name. -/
theorem step_eq_notFound (h : s.step place piece = .error .notFound) :
    s.item? place = some .directory ∧ ¬(piece = "" ∨ piece = ".") ∧ piece ≠ ".." ∧
      piece.utf8ByteSize ≤ nameLimit ∧ s.item? (place ++ [piece]) = none := by
  unfold step at h
  split at h
  · rename_i hplace
    split at h
    · cases h
    rename_i hstay
    split at h
    · cases h
    rename_i hparent
    split at h
    · cases h
    rename_i hlength
    split at h
    · cases h
    · rename_i hnone
      exact ⟨hplace, hstay, hparent, Nat.le_of_not_lt hlength, hnone⟩
  · cases h

/-- A proper name that is in a directory is found there. -/
theorem step_of_item? {item : Item} (hplace : s.item? place = some .directory)
    (hstay : ¬(piece = "" ∨ piece = ".")) (hparent : piece ≠ "..")
    (hlength : piece.utf8ByteSize ≤ nameLimit) (hitem : s.item? (place ++ [piece]) = some item) :
    s.step place piece = .ok (place ++ [piece]) := by
  rw [step, hplace]
  dsimp only
  rw [if_neg hstay, if_neg hparent, if_neg (Nat.not_lt.mpr hlength), hitem]

theorem walk_eq_ok (h : s.walk place pieces = .ok next) : next = pieces.foldl advance place := by
  induction pieces generalizing place with
  | nil =>
      cases h
      rfl
  | cons piece pieces ih =>
      rw [walk] at h
      split at h
      · rename_i mid hmid
        rw [List.foldl_cons, ← (step_eq_ok hmid).2]
        exact ih h
      · cases h

theorem walk_append {front back : List String} (h : s.walk place front = .ok next) :
    s.walk place (front ++ back) = s.walk next back := by
  induction front generalizing place with
  | nil =>
      cases h
      rfl
  | cons piece front ih =>
      rw [walk] at h
      rw [List.cons_append, walk]
      split at h
      · rename_i mid hmid
        exact ih h
      · cases h

theorem start_eq_ok (h : s.start path = .ok (place, pieces)) :
    place = s.origin path ∧ pieces = (Path.split path.toList).map String.ofList := by
  unfold start at h
  dsimp only at h
  split at h
  · cases h
  split at h
  · cases h
  split at h
  · cases h
  · cases h
    exact ⟨rfl, rfl⟩

theorem start_eq_ok_iff : s.start path = .ok (s.origin path, Store.pieces path) ↔
    '\x00' ∉ path.toList ∧ path.toList ≠ [] ∧ path.utf8ByteSize ≤ pathLimit := by
  unfold Store.start
  dsimp only
  simp only [List.contains_iff_mem]
  split
  · rename_i hnul
    simp [hnul]
  split
  · rename_i hempty
    simp [hempty]
  split
  · rename_i hlength
    simp [hlength]
  · rename_i hnul hempty hlength
    exact ⟨fun _ => ⟨hnul, hempty, Nat.le_of_not_lt hlength⟩, fun _ => rfl⟩

theorem locate_eq_ok (h : s.locate path = .ok place) : place = s.placeOf path := by
  obtain ⟨⟨first, pieces⟩, hstart, hwalk⟩ := bind_eq_ok.mp h
  obtain ⟨rfl, rfl⟩ := start_eq_ok hstart
  exact walk_eq_ok hwalk

end

/-! ### What is kept -/

/-- The second store has all that the first one has, except that files for which `changed` holds may
have other bytes. -/
structure Keeps (changed : Place → Prop) (s s' : Store) : Prop where
  workingDirectory_eq : s'.workingDirectory = s.workingDirectory
  directory : ∀ p, s.item? p = some .directory → s'.item? p = some .directory
  file : ∀ p bytes, s.item? p = some (.file bytes) →
    ∃ bytes', s'.item? p = some (.file bytes') ∧ (changed p ∨ bytes' = bytes)

namespace Keeps

variable {changed : Place → Prop} {s s' s'' : Store}

theorem refl (changed : Place → Prop) (s : Store) : Keeps changed s s :=
  ⟨rfl, fun _ h => h, fun _ bytes h => ⟨bytes, h, Or.inr rfl⟩⟩

theorem trans (h : Keeps changed s s') (h' : Keeps changed s' s'') : Keeps changed s s'' := by
  refine ⟨h'.workingDirectory_eq.trans h.workingDirectory_eq,
    fun p hp => h'.directory p (h.directory p hp), fun p bytes hp => ?_⟩
  obtain ⟨bytes', hp', hbytes'⟩ := h.file p bytes hp
  obtain ⟨bytes'', hp'', hbytes''⟩ := h'.file p bytes' hp'
  refine ⟨bytes'', hp'', ?_⟩
  rcases hbytes'' with hchanged | rfl
  · exact Or.inl hchanged
  · exact hbytes'

theorem mono {changed' : Place → Prop} (h : Keeps changed s s')
    (himp : ∀ p, changed p → changed' p) : Keeps changed' s s' := by
  refine ⟨h.workingDirectory_eq, h.directory, fun p bytes hp => ?_⟩
  obtain ⟨bytes', hp', hbytes'⟩ := h.file p bytes hp
  exact ⟨bytes', hp', hbytes'.imp_left (himp p)⟩

section

variable (h : Keeps changed s s')

include h

theorem exists_item? {p : Place} {item : Item} (hp : s.item? p = some item) :
    ∃ item', s'.item? p = some item' := by
  cases item with
  | directory => exact ⟨_, h.directory p hp⟩
  | file bytes =>
      obtain ⟨bytes', hp', -⟩ := h.file p bytes hp
      exact ⟨_, hp'⟩

theorem step {place next : Place} {piece : String} (hstep : s.step place piece = .ok next) :
    s'.step place piece = .ok next := by
  unfold Store.step at hstep ⊢
  split at hstep
  · rename_i hplace
    rw [h.directory _ hplace]
    dsimp only
    split at hstep
    · rename_i hstay
      rw [if_pos hstay]
      exact hstep
    rename_i hstay
    rw [if_neg hstay]
    split at hstep
    · rename_i hparent
      rw [if_pos hparent]
      exact hstep
    rename_i hparent
    rw [if_neg hparent]
    split at hstep
    · cases hstep
    rename_i hlength
    rw [if_neg hlength]
    split at hstep
    · rename_i item hitem
      obtain ⟨item', hitem'⟩ := h.exists_item? hitem
      rw [hitem']
      exact hstep
    · cases hstep
  · cases hstep

theorem walk {place next : Place} {pieces : List String} (hwalk : s.walk place pieces = .ok next) :
    s'.walk place pieces = .ok next := by
  induction pieces generalizing place with
  | nil => exact hwalk
  | cons piece pieces ih =>
      rw [Store.walk] at hwalk ⊢
      split at hwalk
      · rename_i mid hmid
        rw [h.step hmid]
        exact ih hwalk
      · cases hwalk

theorem start_eq (path : String) : s'.start path = s.start path := by
  unfold start
  rw [h.workingDirectory_eq]

theorem placeOf_eq (path : String) : s'.placeOf path = s.placeOf path := by
  unfold placeOf origin
  rw [h.workingDirectory_eq]

/-- What was read is read again, unless its place was changed. -/
theorem read {path : String} {bytes : List UInt8} (hread : s.read path = .ok bytes)
    (hkept : ¬changed (s.placeOf path)) : s'.read path = .ok bytes := by
  obtain ⟨place, hlocate, hitem⟩ := bind_eq_ok.mp hread
  obtain rfl := locate_eq_ok hlocate
  have hlocate' : s'.locate path = .ok (s.placeOf path) := by
    obtain ⟨⟨first, pieces⟩, hstart, hwalk⟩ := bind_eq_ok.mp hlocate
    exact bind_eq_ok.mpr ⟨(first, pieces), (h.start_eq path).trans hstart, h.walk hwalk⟩
  refine bind_eq_ok.mpr ⟨_, hlocate', ?_⟩
  split at hitem
  · rename_i bytes' hfile
    cases hitem
    obtain ⟨bytes', hfile', hbytes'⟩ := h.file _ _ hfile
    rw [hfile', hbytes'.resolve_left hkept]
    rfl
  · cases hitem
  · cases hitem

end

end Keeps

/-! ### Writing -/

section

variable {s s' : Store} {place directory : Place} {path : String} {bytes : List UInt8}

theorem item?_put_self (hplace : place ≠ []) (item : Item) :
    (s.put place item).item? place = some item := by
  simp [item?, put, hplace]

theorem item?_put_of_ne (item : Item) {p : Place} (hp : p ≠ place) :
    (s.put place item).item? p = s.item? p := by
  simp [item?, put, Std.HashMap.getElem?_insert, Ne.symm hp]

theorem item?_put (hplace : place ≠ []) (item : Item) (p : Place) :
    (s.put place item).item? p = if p = place then some item else s.item? p := by
  split
  · rename_i hp
    rw [hp, item?_put_self hplace]
  · rename_i hp
    exact item?_put_of_ne _ hp

/-- A store in which nothing was written has its root only. -/
theorem item?_empty (p : Place) :
    (Store.empty []).item? p = if p = [] then some .directory else none := by
  simp [item?, Store.empty]

/-- Putting a file where there is no directory changes that place only. -/
theorem keeps_put_file (h : s.item? place ≠ some .directory) (bytes : List UInt8) :
    Keeps (· = place) s (s.put place (.file bytes)) := by
  have hne : place ≠ [] := by
    rintro rfl
    exact h rfl
  refine ⟨rfl, fun p hp => ?_, fun p bytes' hp => ?_⟩
  · have hpp : p ≠ place := by
      rintro rfl
      exact h hp
    rw [item?_put_of_ne _ hpp]
    exact hp
  · by_cases hpp : p = place
    · subst hpp
      exact ⟨bytes, item?_put_self hne _, Or.inl rfl⟩
    · exact ⟨bytes', (item?_put_of_ne _ hpp).trans hp, Or.inr rfl⟩

/-- Putting a directory where there is nothing changes nothing. -/
theorem keeps_put_directory (h : s.item? place = none) :
    Keeps (fun _ => False) s (s.put place .directory) := by
  have hother {p : Place} {item : Item} (hp : s.item? p = some item) : p ≠ place := by
    rintro rfl
    rw [h] at hp
    cases hp
  refine ⟨rfl, fun p hp => ?_, fun p bytes hp => ⟨bytes, ?_, Or.inr rfl⟩⟩
  · rw [item?_put_of_ne _ (hother hp)]
    exact hp
  · rw [item?_put_of_ne _ (hother hp)]
    exact hp

/-- Made directories lead where their pieces say, and nothing else changes. -/
theorem makeDirectories_eq_ok {pieces : List String}
    (h : s.makeDirectories place pieces = (s', .ok directory)) :
    Keeps (fun _ => False) s s' ∧ s'.item? directory = some .directory ∧
      s'.walk place pieces = .ok directory := by
  induction pieces generalizing s place with
  | nil =>
      unfold makeDirectories at h
      split at h
      · rename_i hplace
        cases h
        exact ⟨.refl _ _, hplace, rfl⟩
      · cases h
  | cons piece pieces ih =>
      rw [makeDirectories] at h
      split at h
      · rename_i next hnext
        obtain ⟨hkeeps, hdirectory, hwalk⟩ := ih h
        refine ⟨hkeeps, hdirectory, ?_⟩
        rw [walk, hkeeps.step hnext]
        exact hwalk
      · rename_i hmissing
        obtain ⟨hplace, hstay, hparent, hlength, hnone⟩ := step_eq_notFound hmissing
        obtain ⟨hkeeps, hdirectory, hwalk⟩ := ih h
        have hput := keeps_put_directory hnone
        have hstep := step_of_item? (hput.directory _ hplace) hstay hparent hlength
          (item?_put_self (by simp) .directory)
        refine ⟨hput.trans hkeeps, hdirectory, ?_⟩
        rw [walk, hkeeps.step hstep]
        exact hwalk
      · cases h

theorem writeAt_eq_ok {name : String} (h : s.writeAt directory name bytes = .ok s') :
    ¬(name = "" ∨ name = ".") ∧ name ≠ ".." ∧ name.utf8ByteSize ≤ nameLimit ∧
      s.item? (directory ++ [name]) ≠ some .directory ∧
      s' = s.put (directory ++ [name]) (.file bytes) := by
  unfold writeAt at h
  split at h
  · cases h
  rename_i hname
  split at h
  · cases h
  rename_i hlength
  split at h
  · cases h
  · rename_i hfree
    cases h
    simp only [not_or] at hname
    exact ⟨not_or.mpr ⟨hname.1, hname.2.1⟩, hname.2.2, Nat.le_of_not_lt hlength, hfree, rfl⟩

theorem pieces_eq (path : String) : ∃ name, pieces path = (pieces path).dropLast ++ [name] := by
  have hne : pieces path ≠ [] := by simp [pieces, Path.split_ne_nil]
  exact ⟨_, (List.dropLast_append_getLast hne).symm⟩

/-- What it takes to write a file: its directories are made, and it is put into the last of them. -/
theorem write_eq_ok_iff : s.write path bytes = (s', .ok ()) ↔
    ∃ s₁ directory name, s.start path = .ok (s.origin path, pieces path) ∧
      pieces path = (pieces path).dropLast ++ [name] ∧
      s.makeDirectories (s.origin path) (pieces path).dropLast = (s₁, .ok directory) ∧
      s₁.writeAt directory name bytes = .ok s' := by
  have hlast {name : String} (hpieces : pieces path = (pieces path).dropLast ++ [name]) :
      (pieces path).getLastD "" = name := by
    rw [hpieces, List.getLastD_eq_getLast?, List.getLast?_concat, Option.getD_some]
  constructor
  · intro h
    unfold write at h
    split at h
    · cases h
    rename_i place ps hstart
    obtain ⟨rfl, rfl⟩ := start_eq_ok hstart
    split at h
    · cases h
    rename_i s₁ directory hmade
    split at h
    · rename_i written hwritten
      cases h
      obtain ⟨name, hpieces⟩ := pieces_eq path
      refine ⟨s₁, directory, name, hstart, hpieces, hmade, ?_⟩
      rw [← hlast hpieces]
      exact hwritten
    · cases h
  · rintro ⟨s₁, directory, name, hstart, hpieces, hmade, hwritten⟩
    unfold write
    rw [hstart]
    dsimp only
    rw [hmade, hlast hpieces]
    dsimp only
    rw [hwritten]

/-- The last directory made, and the place in it that the path leads to. -/
theorem placeOf_eq {name : String} (hpieces : pieces path = (pieces path).dropLast ++ [name])
    (hstay : ¬(name = "" ∨ name = ".")) (hparent : name ≠ "..")
    (hmade : s.makeDirectories (s.origin path) (pieces path).dropLast = (s', .ok directory)) :
    s.placeOf path = directory ++ [name] := by
  obtain ⟨-, -, hwalk⟩ := makeDirectories_eq_ok hmade
  show (pieces path).foldl advance (s.origin path) = _
  rw [hpieces, List.foldl_append, ← walk_eq_ok hwalk, List.foldl_cons, List.foldl_nil, advance,
    if_neg hstay, if_neg hparent]

/-- What was written is read, and nothing else changes. -/
theorem write_eq_ok (h : s.write path bytes = (s', .ok ())) :
    Keeps (· = s.placeOf path) s s' ∧ s'.read path = .ok bytes := by
  obtain ⟨s₁, directory, name, hstart, hpieces, hmade, hwritten⟩ := write_eq_ok_iff.mp h
  obtain ⟨hkeeps, hdirectory, hwalk⟩ := makeDirectories_eq_ok hmade
  obtain ⟨hstay, hparent, hlength, hfree, hput⟩ := writeAt_eq_ok hwritten
  have hfile := keeps_put_file hfree bytes
  rw [← hput] at hfile
  have hall := (hkeeps.mono fun _ hfalse => hfalse.elim).trans hfile
  rw [← placeOf_eq hpieces hstay hparent hmade] at hall
  refine ⟨hall, ?_⟩
  have hitem : s'.item? (directory ++ [name]) = some (.file bytes) := by
    rw [hput]
    exact item?_put_self (by simp) _
  have hstep := step_of_item? (hfile.directory _ hdirectory) hstay hparent hlength hitem
  have hlocate : s'.locate path = .ok (directory ++ [name]) := by
    refine bind_eq_ok.mpr ⟨_, (hall.start_eq path).trans hstart, ?_⟩
    show s'.walk (s.origin path) (pieces path) = _
    rw [hpieces, walk_append (hfile.walk hwalk), walk, hstep]
    rfl
  refine bind_eq_ok.mpr ⟨_, hlocate, ?_⟩
  rw [hitem]
  rfl

end

/-! ### Files of classes -/

/-- Proper pieces lead down one by one. -/
theorem foldl_advance {pieces : List (List Char)} (h : ∀ p ∈ pieces, Path.Proper p) (place : Place) :
    (pieces.map String.ofList).foldl advance place = place ++ pieces.map String.ofList := by
  induction pieces generalizing place with
  | nil => simp
  | cons p pieces ih =>
      obtain ⟨⟨hne, hself, hparent⟩, hpieces⟩ := List.forall_mem_cons.mp h
      have hadvance : advance place (String.ofList p) = place ++ [String.ofList p] := by
        have hne' : String.ofList p ≠ "" := fun h => hne (String.ofList_injective h)
        have hself' : String.ofList p ≠ "." := fun h => hself (String.ofList_injective h)
        have hparent' : String.ofList p ≠ ".." := fun h => hparent (String.ofList_injective h)
        simp [advance, hne', hself', hparent']
      rw [List.map_cons, List.foldl_cons, hadvance, ih hpieces, List.append_assoc,
        List.singleton_append]

/-- The files of classes with different internal names are at different places. -/
theorem internal_eq_of_placeOf (s : Store) {root a b : String} (ha : Path.Named a)
    (hb : Path.Named b) (h : s.placeOf (Path.ofClass root a) = s.placeOf (Path.ofClass root b)) :
    ClassName.internal a = ClassName.internal b := by
  have hplace {name : String} (hname : Path.Named name) : s.placeOf (Path.ofClass root name) =
      ((Path.rootPieces root).map String.ofList).foldl advance (s.origin root) ++
        (Path.filePieces name).map String.ofList := by
    rw [placeOf, Path.split_ofClass hname, List.map_append, List.foldl_append, origin,
      Path.isAbsolute_ofClass hname,
      foldl_advance fun _ hp => Path.proper_of_mem_filePieces hname hp]
    rfl
  rw [hplace ha, hplace hb] at h
  have hmap := List.append_cancel_left h
  have hinjective : Function.Injective String.ofList := fun _ _ => String.ofList_injective
  exact Path.internal_eq_of_filePieces (List.map_injective_iff.mpr hinjective hmap)

end Retrofit.Store
