import Mathlib.Data.List.Pairwise
import Retrofit.Proofs.Store

/-!
# Writes in any order

A write goes through if its path is clear: no file stands where it needs a directory, and no directory
where it puts its file. It leaves exactly its file and the directories on the way to it. So two writes
disturb each other only if one puts a file where the other needs a directory, whichever comes first,
and files that can be written one after the other can be written in any other order too, some of them
alone, and some of them again.
-/

namespace Retrofit.Store

/-! ### Making directories -/

/-- Above each directory is a directory. -/
def Rooted (s : Store) : Prop :=
  ∀ p, s.item? p = some .directory → s.item? p.dropLast = some .directory

/-- The places that pieces lead through, the first one included. -/
def stopsFrom (place : Place) (pieces : List String) : List Place := pieces.scanl advance place

theorem stopsFrom_cons (place : Place) (piece : String) (pieces : List String) :
    stopsFrom place (piece :: pieces) = place :: stopsFrom (advance place piece) pieces :=
  List.scanl_cons

theorem mem_stopsFrom (place : Place) (pieces : List String) : place ∈ stopsFrom place pieces := by
  cases pieces with
  | nil => exact List.mem_singleton_self place
  | cons piece pieces =>
      rw [stopsFrom_cons]
      exact List.mem_cons_self

section

variable {s s' : Store} {place directory : Place} {piece : String} {pieces : List String}

theorem Rooted.put (h : s.Rooted) (hplace : s.item? place = some .directory) (piece : String) :
    (s.put (place ++ [piece]) .directory).Rooted := by
  intro p hp
  rw [item?_put (by simp)] at hp ⊢
  split
  · rfl
  · split at hp
    · rename_i heq
      rw [heq, List.dropLast_concat]
      exact hplace
    · exact h p hp

/-- From a directory a short name leads to where it says, if anything is there. -/
theorem step_of_exists (hplace : s.item? place = some .directory)
    (hlength : piece.utf8ByteSize ≤ nameLimit) {item : Item}
    (hitem : s.item? (advance place piece) = some item) :
    s.step place piece = .ok (advance place piece) := by
  by_cases hstay : piece = "" ∨ piece = "."
  · rw [step, hplace, advance, if_pos hstay]
    dsimp only
    rw [if_pos hstay]
  · by_cases hparent : piece = ".."
    · rw [step, hplace, advance, if_neg hstay, if_pos hparent]
      dsimp only
      rw [if_neg hstay, if_pos hparent]
    · have hadvance : advance place piece = place ++ [piece] := by
        rw [advance, if_neg hstay, if_neg hparent]
      rw [hadvance] at hitem ⊢
      exact step_of_item? hplace hstay hparent hlength hitem

/-- It is missing only if it is the name of something in the directory. -/
theorem step_of_missing (h : s.Rooted) (hplace : s.item? place = some .directory)
    (hlength : piece.utf8ByteSize ≤ nameLimit) (hitem : s.item? (advance place piece) = none) :
    advance place piece = place ++ [piece] ∧ s.step place piece = .error .notFound := by
  by_cases hstay : piece = "" ∨ piece = "."
  · rw [advance, if_pos hstay, hplace] at hitem
    cases hitem
  · by_cases hparent : piece = ".."
    · rw [advance, if_neg hstay, if_pos hparent, h place hplace] at hitem
      cases hitem
    · have hadvance : advance place piece = place ++ [piece] := by
        rw [advance, if_neg hstay, if_neg hparent]
      refine ⟨hadvance, ?_⟩
      rw [hadvance] at hitem
      rw [step, hplace]
      dsimp only
      rw [if_neg hstay, if_neg hparent, if_neg (Nat.not_lt.mpr hlength), hitem]

theorem step_of_long (hplace : s.item? place = some .directory)
    (hlength : nameLimit < piece.utf8ByteSize) : s.step place piece = .error .nameTooLong := by
  have hstay : ¬(piece = "" ∨ piece = ".") := by
    rintro (rfl | rfl) <;> exact absurd hlength (by decide)
  have hparent : piece ≠ ".." := by
    rintro rfl
    exact absurd hlength (by decide)
  rw [step, hplace]
  dsimp only
  rw [if_neg hstay, if_neg hparent, if_pos hlength]

/-- Where there is a file, nothing is made below. -/
theorem makeDirectories_of_file {bytes : List UInt8} (h : s.item? place = some (.file bytes)) :
    s.makeDirectories place pieces = (s, .error .notADirectory) := by
  cases pieces with
  | nil => rw [makeDirectories, h]
  | cons piece pieces =>
      have hstep : s.step place piece = .error .notADirectory := by
        rw [step, h]
      rw [makeDirectories, hstep]

/-- One more directory is made, or was there already. -/
theorem makeDirectories_cons (h : s.Rooted) (hplace : s.item? place = some .directory)
    (hlength : piece.utf8ByteSize ≤ nameLimit)
    (hclear : ∀ bytes, s.item? (advance place piece) ≠ some (.file bytes)) :
    ∃ s₁ : Store, (∀ pieces, s.makeDirectories place (piece :: pieces) =
        s₁.makeDirectories (advance place piece) pieces) ∧ s₁.Rooted ∧
      ∀ p, s₁.item? p = if p = advance place piece then some .directory else s.item? p := by
  cases hitem : s.item? (advance place piece) with
  | none =>
      obtain ⟨hadvance, hstep⟩ := step_of_missing h hplace hlength hitem
      rw [hadvance]
      refine ⟨s.put (place ++ [piece]) .directory, fun pieces => ?_, h.put hplace piece,
        item?_put (by simp) _⟩
      rw [makeDirectories, hstep]
  | some item =>
      cases item with
      | file bytes => exact absurd hitem (hclear bytes)
      | directory =>
          refine ⟨s, fun pieces => ?_, h, fun p => ?_⟩
          · rw [makeDirectories, step_of_exists hplace hlength hitem]
          · split
            · rename_i hp
              rw [hp, hitem]
            · rfl

/-- Directories are made unless a name is too long or a file is in the way. -/
theorem exists_makeDirectories_iff (h : s.Rooted) (hplace : s.item? place = some .directory)
    (pieces : List String) :
    (∃ s' directory, s.makeDirectories place pieces = (s', .ok directory)) ↔
      (∀ piece ∈ pieces, piece.utf8ByteSize ≤ nameLimit) ∧
        ∀ p ∈ stopsFrom place pieces, ∀ bytes, s.item? p ≠ some (.file bytes) := by
  induction pieces generalizing s place with
  | nil =>
      refine ⟨fun _ => ⟨by simp, ?_⟩, fun _ => ⟨s, place, by rw [makeDirectories, hplace]⟩⟩
      rw [stopsFrom, List.scanl_nil, List.forall_mem_singleton, hplace]
      simp
  | cons piece pieces ih =>
      rw [stopsFrom_cons, List.forall_mem_cons, List.forall_mem_cons, hplace]
      by_cases hlength : piece.utf8ByteSize ≤ nameLimit
      swap
      · rw [makeDirectories, step_of_long hplace (Nat.lt_of_not_le hlength)]
        simp [hlength]
      by_cases hclear : ∀ bytes, s.item? (advance place piece) ≠ some (.file bytes)
      swap
      · obtain ⟨bytes, hfile⟩ := not_forall_not.mp hclear
        rw [makeDirectories, step_of_exists hplace hlength hfile]
        dsimp only
        rw [makeDirectories_of_file hfile]
        constructor
        · simp
        · rintro ⟨-, -, hrest⟩
          exact absurd hfile (hrest _ (mem_stopsFrom _ _) bytes)
      obtain ⟨s₁, hmade, hrooted, hitem⟩ := makeDirectories_cons h hplace hlength hclear
      have hfile : ∀ p, (∀ bytes, s₁.item? p ≠ some (.file bytes)) ↔
          ∀ bytes, s.item? p ≠ some (.file bytes) := by
        intro p
        rw [hitem]
        split
        · rename_i hp
          subst hp
          simpa using hclear
        · rfl
      rw [hmade, ih hrooted (by rw [hitem, if_pos rfl])]
      simp only [hfile]
      simp [hlength]

/-- What pieces lead through has become directories, and nothing else has changed. -/
theorem item?_makeDirectories (h : s.Rooted) (hplace : s.item? place = some .directory)
    (hmade : s.makeDirectories place pieces = (s', .ok directory)) :
    s'.Rooted ∧ ∀ p, s'.item? p =
      if p ∈ stopsFrom place pieces then some .directory else s.item? p := by
  induction pieces generalizing s place with
  | nil =>
      rw [makeDirectories, hplace] at hmade
      cases hmade
      refine ⟨h, fun p => ?_⟩
      simp only [stopsFrom, List.scanl_nil, List.mem_singleton]
      split
      · rename_i hp
        rw [hp, hplace]
      · rfl
  | cons piece pieces ih =>
      obtain ⟨hlength, hclear⟩ :=
        (exists_makeDirectories_iff h hplace _).mp ⟨s', directory, hmade⟩
      rw [stopsFrom_cons] at hclear ⊢
      obtain ⟨s₁, hmore, hrooted, hitem⟩ := makeDirectories_cons h hplace
        (hlength piece List.mem_cons_self)
        (hclear _ (List.mem_cons_of_mem _ (mem_stopsFrom _ _)))
      rw [hmore] at hmade
      obtain ⟨hrooted', hitem'⟩ := ih hrooted (by rw [hitem, if_pos rfl]) hmade
      refine ⟨hrooted', fun p => ?_⟩
      simp only [hitem', List.mem_cons]
      by_cases hp : p ∈ stopsFrom (advance place piece) pieces
      · rw [if_pos hp, if_pos (Or.inr hp)]
      · have hne : p ≠ advance place piece := by
          rintro rfl
          exact hp (mem_stopsFrom _ _)
        rw [if_neg hp, hitem, if_neg hne]
        split
        · rename_i hor
          rw [hor.resolve_right hp, hplace]
        · rfl

end

/-! ### Writing a file -/

/-- A tree of directories with the working directory among them, as every file system is one. -/
structure Tree (s : Store) : Prop where
  rooted : s.Rooted
  workingDirectory : s.item? s.workingDirectory = some .directory

/-- The directories that a path needs, from the one where it starts. -/
def stops (s : Store) (path : String) : List Place := stopsFrom (s.origin path) (pieces path).dropLast

/-- The text of a path that names a file, as far as it can be told without looking. -/
structure NamesFile (path : String) : Prop where
  noNul : '\x00' ∉ path.toList
  length : path.utf8ByteSize ≤ pathLimit
  lengths : ∀ piece ∈ pieces path, piece.utf8ByteSize ≤ nameLimit
  proper : ∀ piece ∈ ["", ".", ".."], (pieces path).getLast? ≠ some piece

/-- A file can be written at the path. -/
structure Admits (s : Store) (path : String) : Prop where
  names : NamesFile path
  clear : ∀ p ∈ s.stops path, ∀ bytes, s.item? p ≠ some (.file bytes)
  free : s.item? (s.placeOf path) ≠ some .directory
  apart : s.placeOf path ∉ s.stops path

section

variable {s s' : Store} {path : String} {bytes : List UInt8}

theorem Tree.origin (h : s.Tree) (path : String) : s.item? (s.origin path) = some .directory := by
  unfold Store.origin
  split
  · rfl
  · exact h.workingDirectory

/-- A path that names a file can be followed. -/
theorem NamesFile.start (h : NamesFile path) (s : Store) :
    s.start path = .ok (s.origin path, pieces path) := by
  have hempty : path.toList ≠ [] := by
    intro hnil
    refine h.proper "" List.mem_cons_self ?_
    rw [pieces, hnil]
    rfl
  exact start_eq_ok_iff.mpr ⟨h.noNul, hempty, h.length⟩

theorem exists_writeAt_iff {directory : Place} {name : String} (bytes : List UInt8) :
    (∃ s', s.writeAt directory name bytes = .ok s') ↔ ¬(name = "" ∨ name = ".") ∧ name ≠ ".." ∧
      name.utf8ByteSize ≤ nameLimit ∧ s.item? (directory ++ [name]) ≠ some .directory := by
  constructor
  · rintro ⟨s', h⟩
    obtain ⟨hstay, hparent, hlength, hfree, -⟩ := writeAt_eq_ok h
    exact ⟨hstay, hparent, hlength, hfree⟩
  · rintro ⟨hstay, hparent, hlength, hfree⟩
    refine ⟨s.put (directory ++ [name]) (.file bytes), ?_⟩
    obtain ⟨hempty, hself⟩ := not_or.mp hstay
    unfold writeAt
    rw [if_neg (by simp [hempty, hself, hparent]), if_neg (Nat.not_lt.mpr hlength)]
    split
    · rename_i hdirectory
      exact absurd hdirectory hfree
    · rfl

/-- A file is written exactly if its path is clear. -/
theorem exists_write_iff (h : s.Tree) (bytes : List UInt8) :
    (∃ s', s.write path bytes = (s', .ok ())) ↔ s.Admits path := by
  have hmake := exists_makeDirectories_iff h.rooted (h.origin path) (pieces path).dropLast
  constructor
  · rintro ⟨s', hwrite⟩
    obtain ⟨s₁, directory, name, hstart, hpieces, hmade, hwritten⟩ := write_eq_ok_iff.mp hwrite
    obtain ⟨hstay, hparent, hlength, hfree, -⟩ := writeAt_eq_ok hwritten
    obtain ⟨hlengths, hclear⟩ := hmake.mp ⟨s₁, directory, hmade⟩
    obtain ⟨-, hitem⟩ := item?_makeDirectories h.rooted (h.origin path) hmade
    obtain ⟨hnul, -, hpath⟩ := start_eq_ok_iff.mp hstart
    rw [← placeOf_eq hpieces hstay hparent hmade, hitem] at hfree
    split at hfree
    · exact absurd rfl hfree
    rename_i hapart
    refine ⟨⟨hnul, hpath, ?_, ?_⟩, hclear, hfree, hapart⟩
    · rw [hpieces, List.forall_mem_append, List.forall_mem_singleton]
      exact ⟨hlengths, hlength⟩
    · obtain ⟨hempty, hself⟩ := not_or.mp hstay
      rw [hpieces, List.getLast?_concat]
      simp [hempty, hself, hparent]
  · intro hadmits
    obtain ⟨name, hpieces⟩ := pieces_eq path
    have hproper := hadmits.names.proper
    rw [hpieces, List.getLast?_concat] at hproper
    have hstay : ¬(name = "" ∨ name = ".") := by
      rintro (rfl | rfl) <;> simp at hproper
    have hparent : name ≠ ".." := by
      rintro rfl
      simp at hproper
    have hlengths := hadmits.names.lengths
    rw [hpieces, List.forall_mem_append, List.forall_mem_singleton] at hlengths
    obtain ⟨s₁, directory, hmade⟩ := hmake.mpr ⟨hlengths.1, hadmits.clear⟩
    obtain ⟨-, hitem⟩ := item?_makeDirectories h.rooted (h.origin path) hmade
    have hfree : s₁.item? (directory ++ [name]) ≠ some .directory := by
      rw [← placeOf_eq hpieces hstay hparent hmade, hitem, ← stops, if_neg hadmits.apart]
      exact hadmits.free
    obtain ⟨s', hwritten⟩ :=
      (exists_writeAt_iff bytes).mpr ⟨hstay, hparent, hlengths.2, hfree⟩
    exact ⟨s', write_eq_ok_iff.mpr
      ⟨s₁, directory, name, hadmits.names.start s, hpieces, hmade, hwritten⟩⟩

/-- A write leaves its file, the directories on the way to it, and all else as it was. -/
theorem item?_write (h : s.Tree) (hwrite : s.write path bytes = (s', .ok ())) (p : Place) :
    s'.item? p = if p = s.placeOf path then some (.file bytes)
      else if p ∈ s.stops path then some .directory else s.item? p := by
  obtain ⟨s₁, directory, name, -, hpieces, hmade, hwritten⟩ := write_eq_ok_iff.mp hwrite
  obtain ⟨hstay, hparent, -, -, rfl⟩ := writeAt_eq_ok hwritten
  obtain ⟨-, hitem⟩ := item?_makeDirectories h.rooted (h.origin path) hmade
  rw [item?_put (by simp), placeOf_eq hpieces hstay hparent hmade, hitem]
  rfl

/-- A tree stays one. -/
theorem Tree.write (h : s.Tree) (hwrite : s.write path bytes = (s', .ok ())) : s'.Tree := by
  obtain ⟨hkeeps, -⟩ := write_eq_ok hwrite
  refine ⟨?_, ?_⟩
  · obtain ⟨s₁, directory, name, -, -, hmade, hwritten⟩ := write_eq_ok_iff.mp hwrite
    obtain ⟨-, -, -, hfree, rfl⟩ := writeAt_eq_ok hwritten
    obtain ⟨hrooted, -⟩ := item?_makeDirectories h.rooted (h.origin path) hmade
    intro p hp
    have hold : s₁.item? p = some .directory := by
      rw [item?_put (by simp)] at hp
      split at hp
      · cases hp
      · exact hp
    exact (keeps_put_file hfree bytes).directory _ (hrooted p hold)
  · rw [hkeeps.workingDirectory_eq]
    exact hkeeps.directory _ h.workingDirectory

end

/-! ### Writing several files -/

/-- Neither path leads through the file of the other. -/
def Apart (s : Store) (path path' : String) : Prop :=
  s.placeOf path ∉ s.stops path' ∧ s.placeOf path' ∉ s.stops path

/-- Write files one after the other. -/
def writeAll (s : Store) : List (String × List UInt8) → Option Store
  | [] => some s
  | (path, bytes) :: rest =>
    match s.write path bytes with
    | (s, .ok ()) => s.writeAll rest
    | (_, .error _) => none

section

variable {s s' : Store} {path path' : String} {bytes : List UInt8}
  {files files' : List (String × List UInt8)}

theorem stops_of_keeps {changed : Place → Prop} (h : s.Keeps changed s') (path : String) :
    s'.stops path = s.stops path := by
  unfold stops origin
  rw [h.workingDirectory_eq]

theorem writeAll_concat {s'' : Store} : s.writeAll (files ++ [(path, bytes)]) = some s'' ↔
    ∃ s', s.writeAll files = some s' ∧ s'.write path bytes = (s'', .ok ()) := by
  induction files generalizing s with
  | nil =>
      rw [List.nil_append, writeAll, writeAll]
      rcases hwrite : s.write path bytes with ⟨s₁, outcome⟩
      cases outcome <;> simp [writeAll, hwrite]
  | cons f files ih =>
      obtain ⟨first, content⟩ := f
      rw [List.cons_append, writeAll, writeAll]
      rcases s.write first content with ⟨s₁, outcome⟩
      cases outcome with
      | ok done => exact ih
      | error e => simp

/-- After one write another one goes through if it would have done so before, and the two do not
disturb each other. -/
theorem admits_write_iff (h : s.Tree) (hwrite : s.write path bytes = (s', .ok ())) :
    s'.Admits path' ↔ s.Admits path' ∧ s.Apart path path' := by
  obtain ⟨hkeeps, -⟩ := write_eq_ok hwrite
  have hself := (exists_write_iff h _).mp ⟨s', hwrite⟩
  have hitem := item?_write h hwrite
  constructor
  · rintro ⟨hnames, hclear, hfree, hapart⟩
    rw [stops_of_keeps hkeeps] at hclear hapart
    rw [hkeeps.placeOf_eq] at hfree hapart
    have hfile : s.placeOf path ∉ s.stops path' := fun hmem =>
      hclear _ hmem bytes (by rw [hitem, if_pos rfl])
    have hplace : s.placeOf path' ∉ s.stops path := by
      intro hmem
      have hne : s.placeOf path' ≠ s.placeOf path := by
        intro heq
        rw [heq] at hmem
        exact hself.apart hmem
      exact hfree (by rw [hitem, if_neg hne, if_pos hmem])
    refine ⟨⟨hnames, fun p hp old hold => ?_, fun hold => ?_, hapart⟩, hfile, hplace⟩
    · have hne : p ≠ s.placeOf path := by
        rintro rfl
        exact hfile hp
      have hnot : p ∉ s.stops path := fun hmem => hself.clear p hmem old hold
      exact hclear p hp old (by rw [hitem, if_neg hne, if_neg hnot, hold])
    · exact hfree (hkeeps.directory _ hold)
  · rintro ⟨⟨hnames, hclear, hfree, hapart⟩, hfile, hplace⟩
    refine ⟨hnames, ?_, ?_, ?_⟩
    · intro p hp
      rw [stops_of_keeps hkeeps] at hp
      have hne : p ≠ s.placeOf path := by
        rintro rfl
        exact hfile hp
      rw [hitem, if_neg hne]
      split
      · simp
      · exact hclear p hp
    · rw [hkeeps.placeOf_eq, hitem]
      split
      · simp
      · exact hfree
    · rw [stops_of_keeps hkeeps, hkeeps.placeOf_eq]
      exact hapart

/-- Files are written one after the other exactly if each could be written by itself, and no two of
them disturb each other. -/
theorem exists_writeAll_iff (h : s.Tree) : (∃ s', s.writeAll files = some s') ↔
    (∀ f ∈ files, s.Admits f.1) ∧ files.Pairwise fun f g => s.Apart f.1 g.1 := by
  induction files generalizing s with
  | nil => simp [writeAll]
  | cons f files ih =>
      obtain ⟨path, bytes⟩ := f
      rw [writeAll, List.forall_mem_cons, List.pairwise_cons]
      rcases hwrite : s.write path bytes with ⟨s₁, outcome⟩
      cases outcome with
      | error e =>
          have hnot : ¬s.Admits path := by
            rw [← exists_write_iff h bytes, hwrite]
            simp
          simp [hnot]
      | ok done =>
          obtain ⟨hkeeps, -⟩ := write_eq_ok hwrite
          have hself := (exists_write_iff h _).mp ⟨s₁, hwrite⟩
          have happart : ∀ f g : String × List UInt8, s₁.Apart f.1 g.1 = s.Apart f.1 g.1 := by
            intro f g
            unfold Apart
            simp only [stops_of_keeps hkeeps, hkeeps.placeOf_eq]
          dsimp only
          rw [ih (h.write hwrite)]
          simp only [admits_write_iff h hwrite, happart]
          constructor
          · rintro ⟨hall, hpairs⟩
            exact ⟨⟨hself, fun f hf => (hall f hf).1⟩, fun f hf => (hall f hf).2, hpairs⟩
          · rintro ⟨⟨-, hall⟩, hfirst, hpairs⟩
            exact ⟨fun f hf => ⟨hall f hf, hfirst f hf⟩, hpairs⟩

/-- Files that can be written one after the other can be written in any order, some of them alone,
and some of them again, whatever they hold. -/
theorem exists_writeAll_of_subset (h : s.Tree) (hsubset : files'.map Prod.fst ⊆ files.map Prod.fst)
    (hfiles : ∃ s', s.writeAll files = some s') : ∃ s', s.writeAll files' = some s' := by
  obtain ⟨hadmits, hpairs⟩ := (exists_writeAll_iff h).mp hfiles
  rw [← List.forall_mem_map (P := s.Admits)] at hadmits
  rw [← List.pairwise_map (R := s.Apart)] at hpairs
  have hsymm : ∀ path path', s.Apart path path' → s.Apart path' path :=
    fun _ _ hapart => ⟨hapart.2, hapart.1⟩
  have hrefl : ∀ path ∈ files.map Prod.fst, s.Apart path path := fun path hpath =>
    ⟨(hadmits path hpath).apart, (hadmits path hpath).apart⟩
  have hall : ∀ ⦃path⦄, path ∈ files.map Prod.fst → ∀ ⦃path'⦄, path' ∈ files.map Prod.fst →
      s.Apart path path' :=
    haveI : Std.Symm s.Apart := ⟨hsymm⟩
    hpairs.forall_of_forall hrefl
  refine (exists_writeAll_iff h).mpr ⟨fun f hf => hadmits _ (hsubset (List.mem_map_of_mem hf)), ?_⟩
  exact List.pairwise_of_forall_mem_list fun f hf g hg =>
    hall (hsubset (List.mem_map_of_mem hf)) (hsubset (List.mem_map_of_mem hg))

/-- They change nothing else. -/
theorem keeps_writeAll (h : s.writeAll files = some s') :
    s.Keeps (fun place => ∃ path ∈ files.map Prod.fst, place = s.placeOf path) s' := by
  induction files generalizing s with
  | nil =>
      cases h
      exact .refl _ _
  | cons f files ih =>
      obtain ⟨path, bytes⟩ := f
      rw [writeAll] at h
      rcases hwrite : s.write path bytes with ⟨s₁, outcome⟩
      rw [hwrite] at h
      cases outcome with
      | error e => cases h
      | ok done =>
          have hfirst := (write_eq_ok hwrite).1
          refine (hfirst.mono ?_).trans ((ih h).mono ?_)
          · exact fun place hplace => ⟨path, List.mem_cons_self, hplace⟩
          · rintro place ⟨path', hpath', hplace⟩
            exact ⟨path', List.mem_cons_of_mem _ hpath', hplace.trans (hfirst.placeOf_eq path')⟩

/-- The directories on the way to the files are there, and nothing else is new. -/
theorem item?_writeAll (h : s.Tree) (hfiles : s.writeAll files = some s') (p : Place) :
    ((∃ path ∈ files.map Prod.fst, p ∈ s.stops path) → s'.item? p = some .directory) ∧
      ((∀ path ∈ files.map Prod.fst, p ∉ s.stops path ∧ p ≠ s.placeOf path) →
        s'.item? p = s.item? p) := by
  induction files generalizing s with
  | nil =>
      cases hfiles
      exact ⟨nofun, fun _ => rfl⟩
  | cons f files ih =>
      obtain ⟨path, bytes⟩ := f
      rw [writeAll] at hfiles
      rcases hwrite : s.write path bytes with ⟨s₁, outcome⟩
      rw [hwrite] at hfiles
      cases outcome with
      | error e => cases hfiles
      | ok done =>
          have hkeeps := (write_eq_ok hwrite).1
          have hitem := item?_write h hwrite p
          have hself := (exists_write_iff h bytes).mp ⟨s₁, hwrite⟩
          obtain ⟨hdirectory, hnothing⟩ := ih (h.write hwrite) hfiles
          simp only [stops_of_keeps hkeeps, hkeeps.placeOf_eq] at hdirectory hnothing
          rw [List.map_cons, List.exists_mem_cons_iff, List.forall_mem_cons]
          refine ⟨?_, ?_⟩
          · rintro (hp | hp)
            · have hne : p ≠ s.placeOf path := by
                rintro rfl
                exact hself.apart hp
              rw [if_neg hne, if_pos hp] at hitem
              exact (keeps_writeAll hfiles).directory p hitem
            · exact hdirectory hp
          · rintro ⟨⟨hstop, hplace⟩, hrest⟩
            rw [hnothing hrest, hitem, if_neg hplace, if_neg hstop]

end

end Retrofit.Store
