import Mathlib.Data.List.Count
import Mathlib.Data.List.Flatten
import Retrofit.ClassPath
import Retrofit.Discovery
import Retrofit.Proofs.Store.Below
import Retrofit.Proofs.Store.WellNamed

/-!
# Discovered classes

A discovered class is looked up along the path that its name spells. That path leads back to the
file that the name comes from exactly if no directory on the way has a dot in its name, and the file
none but that of its extension: on the way back every dot of the name becomes a slash.
-/

namespace Retrofit

/-! ### Spellings -/

namespace Path

theorem splitExtension_eq_some {name stem extension : List Char}
    (h : splitExtension name = (stem, some extension)) :
    name = stem ++ '.' :: extension ∧ stem ≠ [] := by
  unfold splitExtension at h
  split at h
  · rename_i d e before hdrop
    split at h
    · cases h
    · cases h
      have hd : d = '.' := by
        have hhead := List.head?_dropWhile_not (· ≠ '.') name.reverse
        rw [hdrop] at hhead
        simpa using hhead
      refine ⟨?_, by simp⟩
      rw [← List.reverse_inj, List.reverse_append, List.reverse_cons, List.reverse_reverse,
        List.reverse_reverse, List.append_assoc, List.singleton_append]
      calc name.reverse
          = name.reverse.takeWhile (· ≠ '.') ++ name.reverse.dropWhile (· ≠ '.') :=
            List.takeWhile_append_dropWhile.symm
        _ = name.reverse.takeWhile (· ≠ '.') ++ '.' :: e :: before := by rw [hdrop, hd]
  · cases h

end Path

namespace ClassName

/-- Either spelling leads to the internal one. -/
theorem internal_dotted (name : String) : internal (dotted name) = internal name := by
  rw [← String.toList_inj]
  simp only [internal, dotted, String.toList_map, List.map_map]
  refine List.map_congr_left fun c _ => ?_
  by_cases hc : c = '/' <;> simp [hc]

/-- Without dots a name is its own internal spelling. -/
theorem internal_of_not_mem {name : String} (h : '.' ∉ name.toList) : internal name = name := by
  rw [← String.toList_inj, internal, String.toList_map]
  refine (List.map_congr_left fun c hc => if_neg ?_).trans (List.map_id _)
  rintro rfl
  exact h hc

end ClassName

/-! ### Names of files -/

namespace Discovery

variable {s : Store} {file : Place} {name : String}

/-- The names on the way to the file have one dot between them, that of the extension. -/
def Undotted (file : Place) : Prop := (file.map String.toList).flatten.count '.' = 1

instance (file : Place) : Decidable (Undotted file) :=
  inferInstanceAs (Decidable (_ = _))

/-- A class file has the extension, and stands for the class that the rest of its path spells. -/
theorem className?_eq_some (h : className? file = some name) : ∃ directories stem,
    file = directories ++ [stem ++ ".class"] ∧
      ('.' ∉ stem.toList → name = ClassName.dotted ("/".intercalate (directories ++ [stem]))) := by
  unfold className? at h
  obtain ⟨last, hlast, h⟩ := Option.bind_eq_some_iff.mp h
  obtain ⟨directories, rfl⟩ := List.getLast?_eq_some_iff.mp hlast
  dsimp only at h
  split at h
  · rename_i hextension
    cases h
    obtain ⟨hname, -⟩ := Path.splitExtension_eq_some (Prod.ext rfl hextension)
    refine ⟨directories, String.ofList (Path.splitExtension last.toList).1, ?_, fun hdot => ?_⟩
    · have hlast : last = String.ofList (Path.splitExtension last.toList).1 ++ ".class" := by
        rw [← String.toList_inj, String.toList_append, String.toList_ofList]
        exact hname
      rw [← hlast]
    · rw [String.toList_ofList] at hdot
      have hself : (Path.splitExtension last.toList).1 ≠ ['.'] := fun heq => hdot (by simp [heq])
      rw [List.dropLast_concat, if_neg hself]
  · cases h

theorem toList_intercalate_slash (names : List String) :
    ("/".intercalate names).toList = Path.join (names.map String.toList) := by
  rw [String.toList_intercalate]
  induction names with
  | nil => rfl
  | cons name names ih =>
      cases names with
      | nil => simp [Path.join]
      | cons name' names =>
          rw [List.map_cons, List.map_cons, Path.join, ← List.map_cons, ← ih]
          simp

/-- The dots are those of the pieces. -/
theorem count_dot_join (ps : List (List Char)) :
    (Path.join ps).count '.' = ps.flatten.count '.' := by
  induction ps with
  | nil => rfl
  | cons p ps ih =>
      cases ps with
      | nil => simp [Path.join]
      | cons q ps =>
          rw [Path.join, List.flatten_cons, List.count_append, List.count_append, ← ih]
          simp

theorem toList_intercalate_class (directories : List String) (stem : String) :
    ("/".intercalate (directories ++ [stem ++ ".class"])).toList =
      ("/".intercalate (directories ++ [stem])).toList ++ ".class".toList := by
  rw [toList_intercalate_slash, toList_intercalate_slash, List.map_append, List.map_append]
  cases hnames : directories.map String.toList with
  | nil => simp [Path.join]
  | cons p ps =>
      have hne : p :: ps ≠ [] := List.cons_ne_nil p ps
      rw [List.map_singleton, List.map_singleton, Path.join_append_singleton hne,
        Path.join_append_singleton hne, String.toList_append]
      simp

theorem count_dot_intercalate (names : List String) :
    ("/".intercalate names).toList.count '.' = (names.map String.toList).flatten.count '.' := by
  rw [toList_intercalate_slash, count_dot_join]

/-- All that the path spells but for the extension is without dots. -/
theorem undotted_iff {directories : List String} {stem : String} :
    Undotted (directories ++ [stem ++ ".class"]) ↔
      '.' ∉ ("/".intercalate (directories ++ [stem])).toList := by
  have hclass : ".class".toList.count '.' = 1 := by decide
  rw [Undotted, ← count_dot_intercalate, toList_intercalate_class, List.count_append, hclass,
    ← List.count_eq_zero]
  omega

/-- An undotted file is at the path under which its class is looked up. -/
theorem entryName_of_undotted (h : className? file = some name) (hundotted : Undotted file) :
    ClassPath.entryName name = "/".intercalate file := by
  obtain ⟨directories, stem, rfl, hname⟩ := className?_eq_some h
  have hdots := undotted_iff.mp hundotted
  have hstem : '.' ∉ stem.toList := by
    intro hmem
    rw [toList_intercalate_slash] at hdots
    exact hdots (Path.mem_join (List.mem_map_of_mem (by simp)) hmem)
  rw [ClassPath.entryName, hname hstem, ClassName.internal_dotted,
    ClassName.internal_of_not_mem hdots, ← String.toList_inj, toList_intercalate_class,
    String.toList_append]

/-- The path under which a class is looked up has one dot, whatever its name. -/
theorem count_dot_entryName (name : String) : (ClassPath.entryName name).toList.count '.' = 1 := by
  have hclass : ".class".toList.count '.' = 1 := by decide
  rw [ClassPath.entryName, String.toList_append, List.count_append, hclass,
    List.count_eq_zero.mpr (Path.not_mem_internal name)]

/-! ### Looking up -/

theorem proper_of_mem_entry {p : List Char}
    (h : p ∈ Path.moves (ClassPath.entryName name).toList) : Path.Proper p := by
  obtain ⟨hp, hmoves⟩ := List.mem_filter.mp h
  obtain ⟨hne, -⟩ := of_decide_eq_true hmoves
  rw [ClassPath.entryName, String.toList_append] at hp
  rcases Path.mem_filePieces hp with hp | ⟨q, rfl⟩
  · exact Path.proper_of_mem_pieces hp hne
  · exact Path.proper_append_class q

/-- Where a class is looked up, from the directory or, should its name start with a dot or a slash,
from the root. -/
theorem placeOf_entry {directory : String} {place : Place} (h : s.locate directory = .ok place)
    (name : String) : ∃ first, (first = place ∨ first = []) ∧
      s.placeOf (Path.below directory (ClassPath.entryName name)) =
        first ++ (Path.moves (ClassPath.entryName name).toList).map String.ofList := by
  have hdown (first : Place) : (Store.pieces (ClassPath.entryName name)).foldl Store.advance first =
      first ++ (Path.moves (ClassPath.entryName name).toList).map String.ofList := by
    rw [Store.pieces, ← Store.foldl_advance_moves]
    exact Store.foldl_advance (fun p hp => proper_of_mem_entry hp) first
  cases habsolute : Path.isAbsolute (ClassPath.entryName name).toList with
  | false => exact ⟨place, Or.inl rfl, (Store.placeOf_below h habsolute).trans (hdown place)⟩
  | true =>
      refine ⟨[], Or.inr rfl, ?_⟩
      have hbelow : Path.below directory (ClassPath.entryName name) = ClassPath.entryName name := by
        rw [← String.toList_inj, Path.below, String.toList_ofList, Path.pushAll, List.foldl_cons,
          List.foldl_nil, Path.pushOnto, habsolute]
        simp
      rw [hbelow, ← hdown, Store.placeOf, Store.origin, habsolute]
      rfl

/-- A file at the place where its class is looked up is undotted. -/
theorem undotted_of_placeOf {directory : String} {place : Place}
    (h : s.locate directory = .ok place) (hname : className? file = some name)
    (hplace : s.placeOf (Path.below directory (ClassPath.entryName name)) = place ++ file) :
    Undotted file := by
  obtain ⟨first, hfirst, hentry⟩ := placeOf_entry h name
  rw [hentry] at hplace
  have hsuffix : file <:+ (Path.moves (ClassPath.entryName name).toList).map String.ofList := by
    rcases hfirst with rfl | rfl
    · have hsame := List.append_cancel_left hplace
      exact hsame ▸ List.suffix_refl _
    · exact ⟨place, hplace.symm⟩
  -- The file has no more dots than the path, which has one, and one for its extension.
  have hmost : (file.map String.toList).flatten.count '.' ≤ 1 := by
    have hsublist :
        (file.map String.toList).Sublist (Path.split (ClassPath.entryName name).toList) := by
      refine (hsuffix.sublist.map String.toList).trans ?_
      rw [List.map_map]
      have hid : String.toList ∘ String.ofList = id := funext fun _ => String.toList_ofList
      rw [hid, List.map_id]
      exact List.filter_sublist
    have hcount := hsublist.flatten.count_le '.'
    rw [← count_dot_join (Path.split _), Path.join_split, count_dot_entryName] at hcount
    exact hcount
  obtain ⟨directories, stem, rfl, -⟩ := className?_eq_some hname
  have hclass : ".class".toList.count '.' = 1 := by decide
  have hleast : ((directories ++ [stem ++ ".class"]).map String.toList).flatten.count '.' ≥ 1 := by
    rw [← count_dot_intercalate, toList_intercalate_class, List.count_append, hclass]
    omega
  exact Nat.le_antisymm hmost hleast

/-- An undotted file is where its class is looked up. -/
theorem pieces_entry {item : Item} {place : Place} (h : s.WellNamed)
    (hitem : s.item? (place ++ file) = some item) (hname : className? file = some name)
    (hundotted : Undotted file) :
    Path.isAbsolute (ClassPath.entryName name).toList = false ∧
      Store.pieces (ClassPath.entryName name) = file := by
  have hproper := h.properName hitem
  have hentry : (ClassPath.entryName name).toList = Path.join (file.map String.toList) := by
    rw [entryName_of_undotted hname hundotted, toList_intercalate_slash]
  have hne : file ≠ [] := by
    rintro rfl
    exact absurd hundotted (by decide)
  have hslash : ∀ p ∈ file.map String.toList, '/' ∉ p := by
    intro p hp
    obtain ⟨n, hn, rfl⟩ := List.mem_map.mp hp
    exact (hproper n hn).noSlash
  have hsplit : Path.split (ClassPath.entryName name).toList = file.map String.toList := by
    rw [hentry]
    exact Path.split_join (by simpa using hne) hslash
  refine ⟨?_, ?_⟩
  · rw [Bool.eq_false_iff]
    intro habsolute
    obtain ⟨p, ps, hroot⟩ := Path.isAbsolute_iff.mp habsolute
    rw [hsplit] at hroot
    have hmem : [] ∈ file.map String.toList := by
      rw [hroot]
      exact List.mem_cons_self
    obtain ⟨n, hn, hnil⟩ := List.mem_map.mp hmem
    exact (hproper n hn).proper.1 hnil
  · rw [Store.pieces, hsplit, List.map_map]
    have hid : String.ofList ∘ String.toList = id := funext fun _ => String.ofList_toList
    rw [hid, List.map_id]

theorem noNul_entry {item : Item} {place : Place} (h : s.WellNamed)
    (hitem : s.item? (place ++ file) = some item) (hname : className? file = some name)
    (hundotted : Undotted file) : '\x00' ∉ (ClassPath.entryName name).toList := by
  intro hmem
  obtain ⟨p, hp, hnul⟩ := Path.mem_split_of_mem hmem (by decide)
  have hpiece : String.ofList p ∈ file := by
    rw [← (pieces_entry h hitem hname hundotted).2]
    exact List.mem_map_of_mem hp
  rw [← String.toList_ofList (l := p)] at hnul
  exact (h.properName hitem _ hpiece).noNul hnul

theorem placeOf_of_undotted {directory : String} {place : Place} {item : Item} (h : s.WellNamed)
    (hlocate : s.locate directory = .ok place) (hitem : s.item? (place ++ file) = some item)
    (hname : className? file = some name) (hundotted : Undotted file) :
    s.placeOf (Path.below directory (ClassPath.entryName name)) = place ++ file := by
  obtain ⟨habsolute, hpieces⟩ := pieces_entry h hitem hname hundotted
  rw [Store.placeOf_below hlocate habsolute, hpieces]
  exact (Store.walk_eq_ok (h.walk hitem)).symm

theorem read_of_undotted {directory : String} {place : Place} {bytes : List UInt8} (h : s.WellNamed)
    (hlocate : s.locate directory = .ok place)
    (hfile : s.item? (place ++ file) = some (.file bytes)) (hname : className? file = some name)
    (hundotted : Undotted file)
    (hlength : (Path.below directory (ClassPath.entryName name)).utf8ByteSize ≤ Store.pathLimit) :
    s.read (Path.below directory (ClassPath.entryName name)) = .ok bytes := by
  obtain ⟨habsolute, hpieces⟩ := pieces_entry h hfile hname hundotted
  have hnul := noNul_entry h hfile hname hundotted
  refine bind_eq_ok.mpr ⟨place ++ file, ?_, ?_⟩
  · rw [Store.locate_below hlocate habsolute hnul hlength, hpieces, h.walk hfile]
  · rw [hfile]
    rfl

/-! ### Classes of a directory -/

theorem mem_filesBelow {place : Place} (hne : file ≠ []) :
    file ∈ s.filesBelow place ↔ ∃ bytes, s.item? (place ++ file) = some (.file bytes) := by
  have hitem (bytes : List UInt8) : s.item? (place ++ file) = some (.file bytes) ↔
      (place ++ file, Item.file bytes) ∈ s.items.toList := by
    rw [Std.HashMap.mem_toList_iff_getElem?_eq_some, Store.item?, if_neg (by simp [hne])]
  simp only [hitem]
  unfold Store.filesBelow
  rw [List.mem_filterMap]
  constructor
  · rintro ⟨⟨p, item⟩, hmem, hp⟩
    cases item with
    | directory => cases hp
    | file bytes =>
        dsimp only at hp
        split at hp
        · rename_i hprefix
          cases hp
          rw [← List.prefix_iff_eq_append.mp (List.isPrefixOf_iff_prefix.mp hprefix)] at hmem
          exact ⟨bytes, hmem⟩
        · cases hp
  · rintro ⟨bytes, hmem⟩
    refine ⟨_, hmem, ?_⟩
    dsimp only
    rw [if_pos (List.isPrefixOf_iff_prefix.mpr (List.prefix_append place file)),
      List.drop_left]

/-- The classes of a directory are those that its files stand for. -/
theorem classes_eq_ok {directory : String} (h : s.isDirectory directory = .ok true) :
    ∃ place names, s.locate directory = .ok place ∧ s.item? place = some .directory ∧
      classes s directory = .ok names ∧ ∀ name, name ∈ names ↔ ∃ file bytes,
        s.item? (place ++ file) = some (.file bytes) ∧ className? file = some name := by
  obtain ⟨place, hlocate, hplace⟩ := bind_eq_ok.mp h
  have hdirectory : s.item? place = some .directory := by
    have htrue := Except.ok.inj hplace
    simpa using htrue
  have hclasses : classes s directory = .ok
      (((s.filesBelow place).filterMap className?).mergeSort fun a b => decide (a ≤ b)) := by
    rw [classes, hlocate]
    dsimp only
    rw [hdirectory]
  refine ⟨place, _, hlocate, hdirectory, hclasses, fun name => ?_⟩
  rw [List.mem_mergeSort, List.mem_filterMap]
  have hne {file : Place} (hname : className? file = some name) : file ≠ [] := by
    rintro rfl
    cases hname
  constructor
  · rintro ⟨file, hfile, hname⟩
    obtain ⟨bytes, hbytes⟩ := (mem_filesBelow (hne hname)).mp hfile
    exact ⟨file, bytes, hbytes, hname⟩
  · rintro ⟨file, bytes, hbytes, hname⟩
    exact ⟨file, (mem_filesBelow (hne hname)).mpr ⟨bytes, hbytes⟩, hname⟩

/-- In the first place that is searched a class is found as soon as its path can be read there. -/
theorem find_of_read {cp : ClassPath} {directory : String} {rest : List Source} {bytes : List UInt8}
    (hfirst : cp.sources = .directory directory :: rest)
    (hread : s.read (Path.below directory (ClassPath.entryName name)) = .ok bytes) :
    cp.find s name = (.ok bytes, []) := by
  simp [ClassPath.find, ClassPath.find?, hfirst, ClassPath.search, Source.read?, hread]

/-- A path that is too long for the file system is passed over with a warning. -/
theorem find?_of_long {cp : ClassPath} {directory : String} {rest : List Source}
    (hfirst : cp.sources = .directory directory :: rest)
    (hnul : '\x00' ∉ (Path.below directory (ClassPath.entryName name)).toList)
    (hlength : Store.pathLimit < (Path.below directory (ClassPath.entryName name)).utf8ByteSize) :
    cp.find? s name = ((ClassPath.search s name rest).1,
      .skipped directory name (.access .nameTooLong) :: (ClassPath.search s name rest).2) := by
  have hne : (Path.below directory (ClassPath.entryName name)).toList ≠ [] := by
    intro hnil
    rw [String.toList_eq_nil_iff.mp hnil] at hlength
    exact absurd hlength (by decide)
  have hstart :
      s.start (Path.below directory (ClassPath.entryName name)) = .error .nameTooLong := by
    unfold Store.start
    dsimp only
    rw [if_neg (by simpa using hnul), if_neg hne, if_pos hlength]
  have hread : s.read (Path.below directory (ClassPath.entryName name)) = .error .nameTooLong := by
    rw [Store.read, Store.locate, hstart]
    rfl
  rw [ClassPath.find?, hfirst, ClassPath.search, Source.read?, hread]
  rfl

/-- The class of a file is looked up at the place of that file exactly if the file is undotted. Then
the class path that starts with the directory gives the bytes of that very file, unless its path is
too long to be read, and no other such file has the same class. -/
theorem discovered_found (hs : s.WellNamed) {directory : String}
    (hdirectory : s.isDirectory directory = .ok true) {cp : ClassPath} {rest : List Source}
    (hfirst : cp.sources = .directory directory :: rest) :
    ∃ place names, s.locate directory = .ok place ∧ classes s directory = .ok names ∧
      (∀ name, name ∈ names ↔ ∃ file bytes,
        s.item? (place ++ file) = some (.file bytes) ∧ className? file = some name) ∧
      (∀ file bytes name, s.item? (place ++ file) = some (.file bytes) →
        className? file = some name →
        let path := Path.below directory (ClassPath.entryName name)
        (s.placeOf path = place ++ file ↔ Undotted file) ∧
        (Undotted file → path.utf8ByteSize ≤ Store.pathLimit →
          cp.find s name = (.ok bytes, [])) ∧
        (Undotted file → Store.pathLimit < path.utf8ByteSize →
          cp.find? s name = ((ClassPath.search s name rest).1,
            .skipped directory name (.access .nameTooLong) ::
              (ClassPath.search s name rest).2))) ∧
      ∀ file file' bytes bytes' name, s.item? (place ++ file) = some (.file bytes) →
        s.item? (place ++ file') = some (.file bytes') → className? file = some name →
        className? file' = some name → Undotted file → Undotted file' → file = file' := by
  obtain ⟨place, names, hlocate, -, hnames, hmem⟩ := classes_eq_ok hdirectory
  refine ⟨place, names, hlocate, hnames, hmem,
    fun file bytes name hfile hname => ⟨⟨?place, ?undotted⟩, ?found, ?long⟩, ?distinct⟩
  case place => exact undotted_of_placeOf hlocate hname
  case undotted => exact placeOf_of_undotted hs hlocate hfile hname
  case found =>
    intro hundotted hlength
    exact find_of_read hfirst (read_of_undotted hs hlocate hfile hname hundotted hlength)
  case long =>
    intro hundotted hlength
    have habsolute := (pieces_entry hs hfile hname hundotted).1
    have hnul := noNul_entry hs hfile hname hundotted
    exact find?_of_long hfirst (Store.noNul_below hlocate habsolute hnul) hlength
  case distinct =>
    intro file file' bytes bytes' name hfile hfile' hname hname' hundotted hundotted'
    have hplace := placeOf_of_undotted hs hlocate hfile hname hundotted
    rw [placeOf_of_undotted hs hlocate hfile' hname' hundotted'] at hplace
    exact (List.append_cancel_left hplace).symm

/-! ### A directory with a dot -/

/-- A class in a directory, and one in a directory below with a dot in its name. -/
def shelf : Store :=
  ((((Store.empty []).put ["in"] .directory).put ["in", "C.class"] (.file [1])).put
    ["in", "a.b"] .directory).put ["in", "a.b", "C.class"] (.file [2])

def shelfPath : ClassPath := ⟨[.directory "in"]⟩

theorem item?_shelf (p : Place) : shelf.item? p =
    if p = [] ∨ p = ["in"] ∨ p = ["in", "a.b"] then some .directory
    else if p = ["in", "C.class"] then some (.file [1])
    else if p = ["in", "a.b", "C.class"] then some (.file [2])
    else none := by
  simp only [shelf, Store.item?_put (List.cons_ne_nil _ _), Store.item?_empty]
  grind

theorem utf8ByteSize_shelf : "in".utf8ByteSize = 2 ∧ "a".utf8ByteSize = 1 :=
  ⟨rfl, rfl⟩

theorem wellNamed_shelf : shelf.WellNamed := by
  have hproper : ∀ name ∈ ["in", "C.class", "a.b"], Store.ProperName name := by
    simp only [List.forall_mem_cons]
    refine ⟨?_, ?_, ?_, by simp⟩ <;>
      exact ⟨⟨by decide, by decide, by decide⟩, by decide, by decide, by decide⟩
  have hin := @Store.WellNamed.put _ [] "in" .directory .empty rfl (hproper _ (by simp))
    (Or.inl rfl)
  have hfile := @Store.WellNamed.put _ ["in"] "C.class" (.file [1]) hin
    (by simp [Store.item?_put]) (hproper _ (by simp))
    (Or.inr (by simp [Store.item?_put, Store.item?_empty]))
  have hdotted := @Store.WellNamed.put _ ["in"] "a.b" .directory hfile
    (by simp [Store.item?_put]) (hproper _ (by simp)) (Or.inl rfl)
  exact @Store.WellNamed.put _ ["in", "a.b"] "C.class" (.file [2]) hdotted
    (by simp [Store.item?_put]) (hproper _ (by simp))
    (Or.inr (by simp [Store.item?_put, Store.item?_empty]))

theorem locate_shelf : shelf.locate "in" = .ok ["in"] := by
  have hstart : shelf.start "in" = .ok ([], ["in"]) := rfl
  simp [Store.locate, hstart, Store.walk, Store.step, item?_shelf, Store.nameLimit,
    utf8ByteSize_shelf, bind, Except.bind]

theorem isDirectory_shelf : shelf.isDirectory "in" = .ok true := by
  simp [Store.isDirectory, locate_shelf, item?_shelf, bind, Except.bind, pure, Except.pure]

/-- The class that is not in the directory with a dot is discovered and found. -/
theorem discovered_found_shelf : ∃ names, classes shelf "in" = .ok names ∧ "C" ∈ names ∧
    shelfPath.find shelf "C" = (.ok [1], []) := by
  obtain ⟨place, names, hplace, hnames, hmem, hfiles, -⟩ :=
    discovered_found wellNamed_shelf isDirectory_shelf (rfl : shelfPath.sources = [.directory "in"])
  rw [locate_shelf] at hplace
  cases hplace
  have hfile : shelf.item? (["in"] ++ ["C.class"]) = some (.file [1]) := by simp [item?_shelf]
  have hname : className? ["C.class"] = some "C" := by cbv
  obtain ⟨-, hfound, -⟩ := hfiles _ _ _ hfile hname
  have hbelow : Path.below "in" (ClassPath.entryName "C") = "in/C.class" := by cbv
  rw [hbelow] at hfound
  exact ⟨names, hnames, (hmem "C").mpr ⟨_, _, hfile, hname⟩, hfound (by decide) (by decide)⟩

/-- The class in the directory with a dot is discovered and not found. -/
theorem discovered_not_found : ∃ names, classes shelf "in" = .ok names ∧ "a.b.C" ∈ names ∧
    shelfPath.find shelf "a.b.C" = (.error (.classNotFound "a.b.C"), []) := by
  obtain ⟨place, names, hplace, -, hnames, hmem⟩ := classes_eq_ok isDirectory_shelf
  rw [locate_shelf] at hplace
  cases hplace
  have hfile : shelf.item? (["in"] ++ ["a.b", "C.class"]) = some (.file [2]) := by
    simp [item?_shelf]
  have hname : className? ["a.b", "C.class"] = some "a.b.C" := by cbv
  refine ⟨names, hnames, (hmem _).mpr ⟨_, _, hfile, hname⟩, ?_⟩
  have hbelow : Path.below "in" (ClassPath.entryName "a.b.C") = "in/a/b/C.class" := by cbv
  have hstart : shelf.start "in/a/b/C.class" = .ok ([], ["in", "a", "b", "C.class"]) := rfl
  have hread : shelf.read "in/a/b/C.class" = .error .notFound := by
    simp [Store.read, Store.locate, hstart, Store.walk, Store.step, item?_shelf, Store.nameLimit,
      utf8ByteSize_shelf, bind, Except.bind]
  simp [ClassPath.find, ClassPath.find?, shelfPath, ClassPath.search, Source.read?, hbelow, hread]

end Discovery

end Retrofit
