import Retrofit.Proofs.Store

/-!
# Paths inside a root

The file of a class lies inside the root under which it is put as soon as the name of the class has a
character that is neither a dot nor a slash: the pieces of the name that are empty lead nowhere, and
those that are not are proper names of files. A name of dots and slashes alone leaves the path at the
root itself, and then it is the root that gets the extension.
-/

namespace Retrofit

namespace Path

/-! ### Pieces that lead on -/

/-- The piece is not one that stays where it is. -/
def Moves (p : List Char) : Prop := p ≠ [] ∧ p ≠ ['.']

instance (p : List Char) : Decidable (Moves p) := inferInstanceAs (Decidable (_ ∧ _))

/-- The pieces of a path but for those that stay where they are. -/
def moves (path : List Char) : List (List Char) := (split path).filter (Moves ·)

/-- The path goes on from the root by proper names, at least one of them. -/
def Inside (root path : String) : Prop :=
  isAbsolute path.toList = isAbsolute root.toList ∧
    ∃ names, names ≠ [] ∧ (∀ p ∈ names, Proper p) ∧
      moves path.toList = moves root.toList ++ names

theorem moves_append_slash (as bs : List Char) :
    moves (as ++ '/' :: bs) = moves as ++ moves bs := by
  rw [moves, split_append_slash, List.filter_append]
  rfl

theorem moves_front_append (root p : List Char) : moves (front root ++ p) = moves root ++ moves p := by
  unfold front
  split
  · rename_i h
    rcases h with rfl | hlast
    · rfl
    · obtain ⟨cs, rfl⟩ := List.getLast?_eq_some_iff.mp hlast
      have hslash : moves (cs ++ ['/']) = moves cs := by
        rw [moves_append_slash]
        exact List.append_nil _
      rw [hslash, List.append_assoc, List.singleton_append, moves_append_slash]
  · rw [List.append_assoc, List.singleton_append, moves_append_slash]

theorem moves_of_not_mem {p : List Char} (h : '/' ∉ p) : moves p = [p].filter (Moves ·) := by
  rw [moves, split_of_not_mem h]

theorem isAbsolute_front_append (root : List Char) {p : List Char} (h : isAbsolute p = false) :
    isAbsolute (front root ++ p) = isAbsolute root := by
  cases root with
  | nil => exact h
  | cons c cs =>
      unfold isAbsolute front
      split <;> rfl

/-- Pieces without slashes lead on where they name something, and nothing else about the path
changes. -/
theorem pushAll_spec {pieces : List (List Char)} (h : ∀ p ∈ pieces, '/' ∉ p) (root : List Char) :
    isAbsolute (pushAll root pieces) = isAbsolute root ∧
      moves (pushAll root pieces) = moves root ++ pieces.filter (Moves ·) := by
  unfold pushAll
  induction pieces generalizing root with
  | nil => simp
  | cons p pieces ih =>
      obtain ⟨hslash, hpieces⟩ := List.forall_mem_cons.mp h
      obtain ⟨habsolute, hmoves⟩ := ih hpieces (front root ++ p)
      rw [List.foldl_cons, pushOnto_eq (isAbsolute_of_not_mem hslash)]
      refine ⟨habsolute.trans (isAbsolute_front_append root (isAbsolute_of_not_mem hslash)), ?_⟩
      rw [hmoves, moves_front_append, moves_of_not_mem hslash, List.append_assoc,
        ← List.filter_append, List.singleton_append]

/-! ### Last pieces -/

theorem split_join {ps : List (List Char)} (hne : ps ≠ []) (h : ∀ p ∈ ps, '/' ∉ p) :
    split (join ps) = ps := by
  induction ps with
  | nil => exact absurd rfl hne
  | cons p ps ih =>
      obtain ⟨hp, hps⟩ := List.forall_mem_cons.mp h
      cases ps with
      | nil => exact split_of_not_mem hp
      | cons q ps =>
          rw [join, split_append_slash, split_of_not_mem hp, ih (List.cons_ne_nil q ps) hps]
          rfl

theorem isAbsolute_iff {path : List Char} :
    isAbsolute path = true ↔ ∃ p ps, split path = [] :: p :: ps := by
  cases path with
  | nil => simp [isAbsolute, split]
  | cons c cs =>
      obtain ⟨p, ps, hsplit⟩ := List.exists_cons_of_ne_nil (split_ne_nil cs)
      by_cases hc : c = '/'
      · simp [isAbsolute, split, hc, hsplit]
      · simp [isAbsolute, split, hc, hsplit]

/-- What is trimmed stays where it is, and the last piece left leads on, unless it is the only one. -/
theorem trimmed_spec {ps : List (List Char)} (hne : ps ≠ []) :
    ∃ back p front, ps = back ++ p :: front ∧ trimmed ps = p :: front ∧ (∀ q ∈ back, ¬Moves q) ∧
      (Moves p ∨ front = []) := by
  induction ps with
  | nil => exact absurd rfl hne
  | cons p ps ih =>
      cases ps with
      | nil => exact ⟨[], p, [], rfl, rfl, by simp, Or.inr rfl⟩
      | cons q ps =>
          by_cases hp : p = [] ∨ p = ['.']
          · obtain ⟨back, last, front, hps, htrimmed, hback, hlast⟩ := ih (List.cons_ne_nil q ps)
            refine ⟨p :: back, last, front, by rw [hps, List.cons_append], ?_, ?_, hlast⟩
            · rw [trimmed, if_pos hp, htrimmed]
            · have hstay : ¬Moves p := fun h => hp.elim h.1 h.2
              exact List.forall_mem_cons.mpr ⟨hstay, hback⟩
          · refine ⟨[], p, q :: ps, rfl, ?_, by simp, Or.inl (not_or.mp hp)⟩
            rw [trimmed, if_neg hp]

theorem moves_of_split {path p : List Char} {ahead stay : List (List Char)}
    (h : split path = ahead ++ p :: stay) (hp : Moves p) (hstay : ∀ q ∈ stay, ¬Moves q) :
    moves path = ahead.filter (Moves ·) ++ [p] := by
  have hnil : stay.filter (Moves ·) = [] := by
    rw [List.filter_eq_nil_iff]
    intro q hq
    simpa using hstay q hq
  rw [moves, h, List.filter_append, List.filter_cons_of_pos (by simpa using hp), hnil]

/-- A path with a name behind it has that name as its last step. -/
theorem name?_eq_some {path p : List Char} {back : List (List Char)}
    (h : name? path = some (p, back)) :
    Proper p ∧ ∃ stay, split path = back.reverse ++ p :: stay ∧ ∀ q ∈ stay, ¬Moves q := by
  have hne : (split path).reverse ≠ [] :=
    fun hnil => split_ne_nil path (List.reverse_eq_nil_iff.mp hnil)
  obtain ⟨stay, last, ahead, hsplit, htrimmed, hstay, -⟩ := trimmed_spec hne
  unfold name? at h
  rw [htrimmed] at h
  dsimp only at h
  split at h
  · cases h
  · rename_i hproper
    cases h
    simp only [not_or] at hproper
    refine ⟨hproper, stay.reverse, ?_, fun q hq => hstay q (List.mem_reverse.mp hq)⟩
    rw [← List.reverse_reverse (split path), hsplit, List.reverse_append, List.reverse_cons,
      List.append_assoc, List.singleton_append]

theorem name?_eq_none {path : List Char} (h : name? path = none) :
    ¬∃ ps p, moves path = ps ++ [p] ∧ Proper p := by
  rintro ⟨ps, p, hmoves, hproper⟩
  have hne : (split path).reverse ≠ [] :=
    fun hnil => split_ne_nil path (List.reverse_eq_nil_iff.mp hnil)
  obtain ⟨stay, last, ahead, hsplit, htrimmed, hstay, hlast⟩ := trimmed_spec hne
  unfold name? at h
  rw [htrimmed] at h
  dsimp only at h
  split at h
  · rename_i hnone
    have hpath : split path = ahead.reverse ++ last :: stay.reverse := by
      rw [← List.reverse_reverse (split path), hsplit, List.reverse_append, List.reverse_cons,
        List.append_assoc, List.singleton_append]
    have hstay' : ∀ q ∈ stay.reverse, ¬Moves q := fun q hq => hstay q (List.mem_reverse.mp hq)
    by_cases hmove : Moves last
    · rw [moves_of_split hpath hmove hstay'] at hmoves
      obtain ⟨-, heq⟩ := List.append_inj' hmoves rfl
      cases heq
      exact hnone.elim hproper.1 (fun h => h.elim hproper.2.1 hproper.2.2)
    · have hahead := hlast.resolve_left hmove
      have hnil : moves path = [] := by
        rw [moves, hpath, hahead, List.filter_eq_nil_iff]
        intro q hq
        have hq : ¬Moves q := by
          rcases List.mem_cons.mp hq with rfl | hq
          · exact hmove
          · exact hstay' q hq
        simpa using hq
      rw [hnil] at hmoves
      simp at hmoves
  · cases h

theorem mem_of_mem_splitExtension {name : List Char} {c : Char} (h : c ∈ (splitExtension name).1) :
    c ∈ name := by
  unfold splitExtension at h
  split at h
  · rename_i d e before hdrop
    split at h
    · exact h
    · have hsuffix : e :: before <:+ name.reverse :=
        (List.suffix_cons d _).trans (hdrop ▸ List.dropWhile_suffix _)
      exact List.mem_reverse.mp (hsuffix.subset (List.mem_reverse.mp h))
  · exact h

/-- Only the name of the last step changes with the extension. A path whose last step is not one down
stays as it is. -/
theorem withExtension_spec (path extension : List Char) (hne : extension ≠ [])
    (hslash : '/' ∉ extension) :
    (∃ ps p, moves path = ps ++ [p] ∧ Proper p ∧
      moves (withExtension path extension) = ps ++ [(splitExtension p).1 ++ '.' :: extension] ∧
      isAbsolute (withExtension path extension) = isAbsolute path ∧
      '.' :: extension <:+ withExtension path extension) ∨
    (¬∃ ps p, moves path = ps ++ [p] ∧ Proper p) ∧ withExtension path extension = path := by
  unfold withExtension
  cases hname : name? path with
  | none => exact Or.inr ⟨name?_eq_none hname, rfl⟩
  | some found =>
      obtain ⟨p, back⟩ := found
      obtain ⟨hproper, stay, hsplit, hstay⟩ := name?_eq_some hname
      have hp : Moves p := ⟨hproper.1, hproper.2.1⟩
      have hmem : p ∈ split path := by
        rw [hsplit]
        exact List.mem_append_right _ List.mem_cons_self
      dsimp only
      generalize hlast : (splitExtension p).1 ++ '.' :: extension = last
      have hlastSlash : '/' ∉ last := by
        rw [← hlast, List.mem_append, not_or]
        refine ⟨fun h => not_mem_of_mem_split hmem (mem_of_mem_splitExtension h), ?_⟩
        simpa using hslash
      have hlastMoves : Moves last := by
        rw [← hlast]
        refine ⟨by simp, fun heq => hne ?_⟩
        have hlength := congrArg List.length heq
        simp only [List.length_append, List.length_cons, List.length_nil] at hlength
        exact List.length_eq_zero_iff.mp (by omega)
      have hback : ∀ q ∈ back.reverse, '/' ∉ q := fun q hq =>
        not_mem_of_mem_split (hsplit ▸ List.mem_append_left _ hq)
      have hjoin : split (join (back.reverse ++ [last])) = back.reverse ++ last :: [] :=
        split_join (by simp) (List.forall_mem_append.mpr ⟨hback, by simpa using hlastSlash⟩)
      refine Or.inl ⟨back.reverse.filter (Moves ·), p, moves_of_split hsplit hp hstay, hproper, ?_⟩
      rw [hlast, List.reverse_cons]
      refine ⟨moves_of_split hjoin hlastMoves (by simp), ?_, ?_⟩
      · rw [Bool.eq_iff_iff, isAbsolute_iff, isAbsolute_iff, hsplit, hjoin]
        cases hahead : back.reverse with
        | nil => simp [hp.1, hlastMoves.1]
        | cons q qs => cases qs <;> simp
      · have hsuffix : '.' :: extension <:+ last := hlast ▸ List.suffix_append _ _
        refine hsuffix.trans ?_
        by_cases hnil : back.reverse = []
        · rw [hnil]
          exact List.suffix_refl _
        · rw [join_append_singleton hnil]
          exact (List.suffix_cons _ _).trans (List.suffix_append _ _)

/-! ### Files of classes -/

/-- The pieces of the internal name that name something. -/
def names (className : String) : List (List Char) := (pieces className).filter (· ≠ [])

theorem names_of_named {className : String} (h : Named className) :
    names className = pieces className := by
  rw [names, List.filter_eq_self]
  intro p hp
  simpa using h p hp

/-- Without dots, only empty pieces stay where they are. -/
theorem filter_moves_pieces (className : String) :
    (pieces className).filter (Moves ·) = names className := by
  refine List.filter_congr fun p hp => ?_
  have hdot := (not_mem_of_mem_pieces hp).2
  have hself : p ≠ ['.'] := fun h => hdot (by simp [h])
  simp [Moves, hself]

theorem proper_of_mem_names {className : String} {p : List Char} (h : p ∈ names className) :
    Proper p ∧ '.' ∉ p := by
  obtain ⟨hp, hne⟩ := List.mem_filter.mp h
  exact ⟨proper_of_mem_pieces hp (by simpa using hne), (not_mem_of_mem_pieces hp).2⟩

/-- The internal name names something as soon as a character of the name separates nothing. -/
theorem names_ne_nil_iff (className : String) :
    names className ≠ [] ↔ ∃ c ∈ className.toList, c ≠ '.' ∧ c ≠ '/' := by
  constructor
  · intro h
    obtain ⟨p, hp⟩ := List.exists_mem_of_ne_nil _ h
    obtain ⟨hpieces, hne⟩ := List.mem_filter.mp hp
    obtain ⟨c, hc⟩ := List.exists_mem_of_ne_nil p (by simpa using hne)
    have hslash : c ≠ '/' := fun heq => (not_mem_of_mem_pieces hpieces).1 (heq ▸ hc)
    have hinternal : c ∈ (ClassName.internal className).toList := by
      rw [← join_split (ClassName.internal className).toList]
      exact mem_join hpieces hc
    rw [ClassName.internal, String.toList_map, List.mem_map] at hinternal
    obtain ⟨d, hd, hdc⟩ := hinternal
    split at hdc
    · exact absurd hdc.symm hslash
    · rename_i hdot
      exact ⟨d, hd, hdot, hdc ▸ hslash⟩
  · rintro ⟨c, hmem, hdot, hslash⟩ hnil
    have hinternal : c ∈ (ClassName.internal className).toList := by
      rw [ClassName.internal, String.toList_map, List.mem_map]
      exact ⟨c, hmem, if_neg hdot⟩
    obtain ⟨p, hp, hcp⟩ := mem_split_of_mem hinternal hslash
    have hp : p ∈ names className :=
      List.mem_filter.mpr ⟨hp, by simpa using List.ne_nil_of_mem hcp⟩
    rw [hnil] at hp
    cases hp

theorem toList_ofClass_eq (root className : String) : (ofClass root className).toList =
    withExtension (pushAll root.toList (pieces className)) "class".toList := by
  rw [ofClass, String.toList_ofList]
  rfl

theorem moves_pushAll_pieces (root className : String) :
    isAbsolute (pushAll root.toList (pieces className)) = isAbsolute root.toList ∧
      moves (pushAll root.toList (pieces className)) = moves root.toList ++ names className := by
  rw [← filter_moves_pieces]
  exact pushAll_spec (fun p hp => (not_mem_of_mem_pieces hp).1) _

/-- A name that names something is followed from the root on, and the extension is its own. -/
theorem ofClass_of_names {className : String} {ahead : List (List Char)} {p : List Char}
    (h : names className = ahead ++ [p]) (root : String) :
    moves (ofClass root className).toList =
        moves root.toList ++ (ahead ++ [p ++ ".class".toList]) ∧
      isAbsolute (ofClass root className).toList = isAbsolute root.toList ∧
      ".class".toList <:+ (ofClass root className).toList := by
  obtain ⟨habsolute, hmoves⟩ := moves_pushAll_pieces root className
  rw [h, ← List.append_assoc] at hmoves
  obtain ⟨hproper, hdot⟩ := proper_of_mem_names (h ▸ List.mem_append_right ahead List.mem_cons_self)
  rw [toList_ofClass_eq]
  rcases withExtension_spec (pushAll root.toList (pieces className)) "class".toList (by decide)
    (by decide) with hnamed | ⟨hnone, -⟩
  · obtain ⟨ps, q, hq, -, hextended, hsame, hsuffix⟩ := hnamed
    obtain ⟨hps, hlast⟩ := List.append_inj' (hq.symm.trans hmoves) rfl
    cases hlast
    refine ⟨?_, hsame.trans habsolute, hsuffix⟩
    rw [hextended, hps, splitExtension_of_not_mem hdot, List.append_assoc]
    rfl
  · exact absurd ⟨_, p, hmoves, hproper⟩ hnone

/-- A name that names nothing leaves the path as many steps long as the root. -/
theorem ofClass_of_no_names {className : String} (h : names className = []) (root : String) :
    (moves (ofClass root className).toList).length = (moves root.toList).length := by
  have hmoves := (moves_pushAll_pieces root className).2
  rw [h, List.append_nil] at hmoves
  rw [toList_ofClass_eq, ← hmoves]
  rcases withExtension_spec (pushAll root.toList (pieces className)) "class".toList (by decide)
    (by decide) with hnamed | ⟨-, hsame⟩
  · obtain ⟨ps, p, hp, -, hextended, -⟩ := hnamed
    rw [hp, hextended, List.length_append, List.length_append]
    rfl
  · rw [hsame]

theorem inside_of_names {className : String} (h : names className ≠ []) (root : String) :
    Inside root (ofClass root className) := by
  obtain ⟨ahead, p, hnames⟩ := (List.eq_nil_or_concat' _).resolve_left h
  obtain ⟨hmoves, habsolute, -⟩ := ofClass_of_names hnames root
  refine ⟨habsolute, ahead ++ [p ++ ".class".toList], by simp, fun q hq => ?_, hmoves⟩
  have hproper : ∀ q ∈ names className, Proper q := fun q hq => (proper_of_mem_names hq).1
  rw [hnames] at hproper
  rcases List.mem_append.mp hq with hq | hq
  · exact hproper q (List.mem_append_left _ hq)
  · rw [List.mem_singleton.mp hq]
    exact proper_append_class p

theorem not_inside_of_no_names {className : String} (h : names className = []) (root : String) :
    ¬Inside root (ofClass root className) := by
  rintro ⟨-, ahead, hne, -, hmoves⟩
  have hlength := ofClass_of_no_names h root
  rw [hmoves, List.length_append] at hlength
  exact hne (List.length_eq_zero_iff.mp (by omega))

end Path

namespace Store

/-- Pieces that stay where they are do not matter for where a path leads. -/
theorem foldl_advance_moves (place : Place) (ps : List (List Char)) :
    ((ps.filter (Path.Moves ·)).map String.ofList).foldl advance place =
      (ps.map String.ofList).foldl advance place := by
  induction ps generalizing place with
  | nil => rfl
  | cons p ps ih =>
      by_cases hp : Path.Moves p
      · rw [List.filter_cons_of_pos (by simpa using hp)]
        exact ih _
      · have hstay : advance place (String.ofList p) = place := by
          have hor : p = [] ∨ p = ['.'] := by
            by_contra hnone
            exact hp (not_or.mp hnone)
          unfold advance
          rcases hor with rfl | rfl
          · exact if_pos (Or.inl rfl)
          · exact if_pos (Or.inr rfl)
        rw [List.filter_cons_of_neg (by simpa using hp), List.map_cons, List.foldl_cons, hstay]
        exact ih place

/-- A path inside a root leads below the place that the root leads to. -/
theorem placeOf_of_inside (s : Store) {root path : String} (h : Path.Inside root path) :
    ∃ names, names ≠ [] ∧ s.placeOf path = s.placeOf root ++ names := by
  obtain ⟨habsolute, names, hne, hproper, hmoves⟩ := h
  refine ⟨names.map String.ofList, by simpa using hne, ?_⟩
  have horigin : s.origin path = s.origin root := by
    rw [origin, origin, habsolute]
  rw [placeOf, placeOf, horigin, ← foldl_advance_moves _ (Path.split path.toList),
    ← foldl_advance_moves _ (Path.split root.toList)]
  show ((Path.moves path.toList).map String.ofList).foldl advance _ =
    ((Path.moves root.toList).map String.ofList).foldl advance _ ++ _
  rw [hmoves, List.map_append, List.foldl_append, foldl_advance hproper]

end Store

namespace Path

theorem inside_ofClass_iff (root className : String) :
    Inside root (ofClass root className) ↔ names className ≠ [] :=
  ⟨fun h hnil => not_inside_of_no_names hnil root h, fun h => inside_of_names h root⟩

/-- Files are shared by classes whose names go through the same directories to the same end. -/
theorem moves_ofClass_eq_iff {a b : String} (ha : names a ≠ []) (hb : names b ≠ []) (root : String) :
    moves (ofClass root a).toList = moves (ofClass root b).toList ↔ names a = names b := by
  obtain ⟨as, p, hp⟩ := (List.eq_nil_or_concat' _).resolve_left ha
  obtain ⟨bs, q, hq⟩ := (List.eq_nil_or_concat' _).resolve_left hb
  rw [(ofClass_of_names hp root).1, (ofClass_of_names hq root).1, hp, hq]
  constructor
  · intro h
    obtain ⟨hahead, hlast⟩ := List.append_inj' (List.append_cancel_left h) rfl
    rw [hahead, List.append_cancel_right (List.singleton_injective hlast)]
  · intro h
    obtain ⟨hahead, hlast⟩ := List.append_inj' h rfl
    rw [hahead, List.singleton_injective hlast]

/-- The file of a class lies inside the root exactly if some character of its name is neither a dot
nor a slash. It then has the extension of class files and is below the root in every store. Two such
classes have one file only if their names differ in empty pieces alone. -/
theorem ofClass_inside (root : String) :
    (∀ className, Inside root (ofClass root className) ↔
      ∃ c ∈ className.toList, c ≠ '.' ∧ c ≠ '/') ∧
    (∀ className, Inside root (ofClass root className) →
      ".class".toList <:+ (ofClass root className).toList ∧
      ∀ s : Store, ∃ names, names ≠ [] ∧
        s.placeOf (ofClass root className) = s.placeOf root ++ names) ∧
    (∀ a b, Inside root (ofClass root a) → Inside root (ofClass root b) →
      (moves (ofClass root a).toList = moves (ofClass root b).toList ↔ names a = names b)) ∧
    ∀ a b, Named a → Named b → ClassName.internal a ≠ ClassName.internal b →
      moves (ofClass root a).toList ≠ moves (ofClass root b).toList := by
  refine ⟨fun className => ?_, fun className h => ⟨?_, fun s => s.placeOf_of_inside h⟩,
    fun a b ha hb => ?_, fun a b ha hb hne heq => hne ?_⟩
  · rw [inside_ofClass_iff, names_ne_nil_iff]
  · have hne := (inside_ofClass_iff root className).mp h
    obtain ⟨ahead, p, hp⟩ := (List.eq_nil_or_concat' _).resolve_left hne
    exact (ofClass_of_names hp root).2.2
  · rw [inside_ofClass_iff] at ha hb
    exact moves_ofClass_eq_iff ha hb root
  · have hnames {name : String} (h : Named name) : names name ≠ [] := by
      rw [names_of_named h]
      exact split_ne_nil _
    rw [moves_ofClass_eq_iff (hnames ha) (hnames hb), names_of_named ha, names_of_named hb] at heq
    exact String.toList_inj.mp (split_injective heq)

/-- A class without a name is written beside the root, to a file called after it. -/
theorem ofClass_nameless_outside :
    ofClass "out" "" = "out.class" ∧ ¬Inside "out" (ofClass "out" "") := by
  have hfile : ofClass "out" "" = "out.class" := by cbv
  have hnames : names "" = [] := by cbv
  exact ⟨hfile, not_inside_of_no_names hnames _⟩

end Path

end Retrofit
