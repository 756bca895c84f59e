import Retrofit.Proofs.Path.Inside

/-!
# Paths below a directory

An entry that is not absolute is looked up from the place of its directory on, whether or not the
path of the directory ends in a slash.
-/

namespace Retrofit

namespace Path

theorem toList_below {entry : String} (h : isAbsolute entry.toList = false) (directory : String) :
    (below directory entry).toList = front directory.toList ++ entry.toList := by
  rw [below, String.toList_ofList, pushAll, List.foldl_cons, List.foldl_nil, pushOnto_eq h,
    List.reverse_reverse]

/-- A path leads through the pieces of its directory and then through those of the entry. -/
theorem split_below {directory entry : String} (hne : directory.toList ≠ [])
    (h : isAbsolute entry.toList = false) : ∃ ps,
      split (below directory entry).toList = ps ++ split entry.toList ∧
      (split directory.toList = ps ∨ split directory.toList = ps ++ [[]]) := by
  rw [toList_below h]
  unfold front
  split
  · rename_i hlast
    obtain ⟨cs, hcs⟩ := List.getLast?_eq_some_iff.mp (hlast.resolve_left hne)
    refine ⟨split cs, ?_, Or.inr ?_⟩
    · rw [hcs, List.append_assoc, List.singleton_append, split_append_slash]
    · rw [hcs, split_append_slash]
      rfl
  · refine ⟨split directory.toList, ?_, Or.inl rfl⟩
    rw [List.append_assoc, List.singleton_append, split_append_slash]

end Path

namespace Store

variable {s : Store} {place next last : Place} {directory entry : String}

theorem exists_of_walk_append {ahead behind : List String}
    (h : s.walk place (ahead ++ behind) = .ok last) :
    ∃ next, s.walk place ahead = .ok next ∧ s.walk next behind = .ok last := by
  induction ahead generalizing place with
  | nil => exact ⟨place, rfl, h⟩
  | cons piece ahead ih =>
      rw [List.cons_append, walk] at h
      rw [walk]
      split at h
      · exact ih h
      · cases h

theorem locate_of_start {path : String} {names : List String}
    (h : s.start path = .ok (place, names)) : s.locate path = s.walk place names := by
  rw [locate, h]
  rfl

theorem origin_below (h : Path.isAbsolute entry.toList = false) (s : Store) (directory : String) :
    s.origin (Path.below directory entry) = s.origin directory := by
  rw [origin, origin, Path.toList_below h, Path.isAbsolute_front_append _ h]

/-- A path that leads somewhere does so by a walk along its pieces. -/
theorem walk_of_locate {path : String} (h : s.locate path = .ok place) :
    s.start path = .ok (s.origin path, pieces path) ∧
      s.walk (s.origin path) (pieces path) = .ok place := by
  obtain ⟨⟨first, names⟩, hstart, hwalk⟩ := bind_eq_ok.mp h
  obtain ⟨rfl, rfl⟩ := start_eq_ok hstart
  exact ⟨hstart, hwalk⟩

theorem noNul_below (h : s.locate directory = .ok place)
    (habsolute : Path.isAbsolute entry.toList = false) (hnul : '\x00' ∉ entry.toList) :
    '\x00' ∉ (Path.below directory entry).toList := by
  obtain ⟨hnulDirectory, -⟩ := start_eq_ok_iff.mp (walk_of_locate h).1
  rw [Path.toList_below habsolute, List.mem_append, not_or]
  refine ⟨?_, hnul⟩
  unfold Path.front
  split
  · exact hnulDirectory
  · rw [List.mem_append, not_or]
    exact ⟨hnulDirectory, by decide⟩

/-- Below a directory the walk goes on from the place of the directory. -/
theorem locate_below (h : s.locate directory = .ok place)
    (habsolute : Path.isAbsolute entry.toList = false) (hnul : '\x00' ∉ entry.toList)
    (hlength : (Path.below directory entry).utf8ByteSize ≤ pathLimit) :
    s.locate (Path.below directory entry) = s.walk place (pieces entry) := by
  obtain ⟨hstart, hwalk⟩ := walk_of_locate h
  obtain ⟨-, hne, -⟩ := start_eq_ok_iff.mp hstart
  have hbelow : s.start (Path.below directory entry) =
      .ok (s.origin directory, pieces (Path.below directory entry)) := by
    rw [← origin_below habsolute]
    refine start_eq_ok_iff.mpr ⟨noNul_below h habsolute hnul, ?_, hlength⟩
    rw [Path.toList_below habsolute]
    unfold Path.front
    split <;> simp [hne]
  obtain ⟨ps, hsplit, hdirectory⟩ := Path.split_below hne habsolute
  have hahead : s.walk (s.origin directory) (ps.map String.ofList) = .ok place := by
    rcases hdirectory with hsame | hslash
    · rw [← hsame]
      exact hwalk
    · -- The empty piece behind the last slash stays where it is.
      have hpieces : pieces directory = ps.map String.ofList ++ [""] := by
        rw [pieces, hslash, List.map_append]
        rfl
      rw [hpieces] at hwalk
      obtain ⟨next, hnext, hlast⟩ := exists_of_walk_append hwalk
      rw [hnext, walk_eq_ok hlast]
      rfl
  have hpieces : pieces (Path.below directory entry) = ps.map String.ofList ++ pieces entry := by
    rw [pieces, hsplit, List.map_append]
    rfl
  rw [locate_of_start hbelow, hpieces, walk_append hahead]

/-- A path below a directory leads on from the place of the directory. -/
theorem placeOf_below (h : s.locate directory = .ok place)
    (habsolute : Path.isAbsolute entry.toList = false) :
    s.placeOf (Path.below directory entry) = (pieces entry).foldl advance place := by
  obtain ⟨-, hne, -⟩ := start_eq_ok_iff.mp (walk_of_locate h).1
  obtain ⟨ps, hsplit, hdirectory⟩ := Path.split_below hne habsolute
  have hahead : (ps.map String.ofList).foldl advance (s.origin directory) = place := by
    rw [locate_eq_ok h, placeOf]
    rcases hdirectory with hsame | hslash
    · rw [hsame]
    · rw [hslash, List.map_append, List.foldl_append]
      rfl
  rw [placeOf, origin_below habsolute, hsplit, List.map_append, List.foldl_append, hahead]
  rfl

end Store

end Retrofit
