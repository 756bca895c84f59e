import Mathlib.Data.List.Basic
import Mathlib.Data.List.TakeWhile
import Retrofit.Path

/-!
# Files of classes

The file of a class below a root is the root, a slash if it needs one, the internal name and the
extension, as long as no piece of the name is empty. An internal name holds no dot, so no piece of it
stays in a directory or leads out of one, and the last piece has no extension to lose.
-/

namespace Retrofit

namespace Path

/-! ### Pieces of texts put together -/

theorem split_append_slash (as bs : List Char) : split (as ++ '/' :: bs) = split as ++ split bs := by
  induction as with
  | nil => rfl
  | cons c as ih =>
      obtain ⟨p, ps, hsplit⟩ := List.exists_cons_of_ne_nil (split_ne_nil as)
      by_cases hc : c = '/'
      · simp [split, hc, ih]
      · simp [split, hc, ih, hsplit]

theorem split_of_not_mem {cs : List Char} (h : '/' ∉ cs) : split cs = [cs] := by
  induction cs with
  | nil => rfl
  | cons c cs ih =>
      obtain ⟨hc, hcs⟩ := not_or.mp (fun hmem => h (List.mem_cons.mpr hmem))
      simp [split, Ne.symm hc, ih hcs]

/-- Text without a slash goes to the last piece. -/
theorem split_append {es : List Char} (h : '/' ∉ es) (cs : List Char) :
    ∃ ps p, split cs = ps ++ [p] ∧ split (cs ++ es) = ps ++ [p ++ es] := by
  induction cs with
  | nil => exact ⟨[], [], rfl, split_of_not_mem h⟩
  | cons c cs ih =>
      obtain ⟨ps, p, hcs, hes⟩ := ih
      by_cases hc : c = '/'
      · exact ⟨[] :: ps, p, by simp [split, hc, hcs], by simp [split, hc, hes]⟩
      · cases ps with
        | nil => exact ⟨[], c :: p, by simp [split, hc, hcs], by simp [split, hc, hes]⟩
        | cons q ps =>
            exact ⟨(c :: q) :: ps, p, by simp [split, hc, hcs], by simp [split, hc, hes]⟩

theorem join_append_singleton {ps : List (List Char)} (h : ps ≠ []) (p : List Char) :
    join (ps ++ [p]) = join ps ++ '/' :: p := by
  induction ps with
  | nil => exact absurd rfl h
  | cons q ps ih =>
      cases ps with
      | nil => rfl
      | cons r ps =>
          have ih := ih (List.cons_ne_nil r ps)
          simp only [List.cons_append] at ih ⊢
          simp [join, ih]

theorem mem_join {ps : List (List Char)} {p : List Char} (hp : p ∈ ps) {c : Char} (hc : c ∈ p) :
    c ∈ join ps := by
  induction ps with
  | nil => cases hp
  | cons q ps ih =>
      cases ps with
      | nil =>
          rw [List.mem_singleton.mp hp] at hc
          exact hc
      | cons r ps =>
          rw [join, List.mem_append]
          rcases List.mem_cons.mp hp with rfl | hp
          · exact Or.inl hc
          · exact Or.inr (List.mem_cons_of_mem _ (ih hp))

/-- What separates no pieces is in one of them. -/
theorem mem_split_of_mem {cs : List Char} {c : Char} (hmem : c ∈ cs) (hc : c ≠ '/') :
    ∃ p ∈ split cs, c ∈ p := by
  induction cs with
  | nil => cases hmem
  | cons d cs ih =>
      obtain ⟨p, ps, hsplit⟩ := List.exists_cons_of_ne_nil (split_ne_nil cs)
      rw [hsplit] at ih
      rcases List.mem_cons.mp hmem with rfl | hmem
      · exact ⟨c :: p, by simp [split, hc, hsplit], List.mem_cons_self⟩
      obtain ⟨q, hq, hcq⟩ := ih hmem
      by_cases hd : d = '/'
      · exact ⟨q, by simp [split, hd, hsplit, List.mem_cons.mp hq], hcq⟩
      · rcases List.mem_cons.mp hq with rfl | hq
        · exact ⟨d :: q, by simp [split, hd, hsplit], List.mem_cons_of_mem _ hcq⟩
        · exact ⟨q, by simp [split, hd, hsplit, hq], hcq⟩

theorem split_injective {as bs : List Char} (h : split as = split bs) : as = bs := by
  rw [← join_split as, h, join_split]

/-! ### Pieces behind a root -/

/-- What stands in front of the first piece that is pushed behind a path. -/
def front (root : List Char) : List Char :=
  if root = [] ∨ root.getLast? = some '/' then root else root ++ ['/']

/-- Only an empty path has nothing in front of the next piece, and else there is a slash. -/
theorem front_eq (root : List Char) : front root = [] ∨ ∃ cs, front root = cs ++ ['/'] := by
  unfold front
  split
  · rename_i h
    rcases h with hnil | hlast
    · exact Or.inl hnil
    · obtain ⟨cs, rfl⟩ := List.getLast?_eq_some_iff.mp hlast
      exact Or.inr ⟨cs, rfl⟩
  · exact Or.inr ⟨root, rfl⟩

theorem front_append_piece {cs p : List Char} (hp : p ≠ []) (hslash : '/' ∉ p) :
    front (cs ++ p) = cs ++ p ++ ['/'] := by
  have hne : cs ++ p ≠ [] := by simp [hp]
  have hlast : (cs ++ p).getLast? ≠ some '/' := by
    intro h
    rw [List.getLast?_append_of_ne_nil cs hp] at h
    exact hslash (List.mem_of_getLast? h)
  unfold front
  rw [if_neg (not_or.mpr ⟨hne, hlast⟩)]

theorem isAbsolute_of_not_mem {p : List Char} (h : '/' ∉ p) : isAbsolute p = false := by
  cases p with
  | nil => rfl
  | cons c cs =>
      have hc : c ≠ '/' := fun hc => h (hc ▸ List.mem_cons_self)
      simpa [isAbsolute] using hc

theorem pushOnto_eq {root p : List Char} (habsolute : isAbsolute p = false) :
    pushOnto root.reverse p = (front root ++ p).reverse := by
  unfold pushOnto front
  rw [habsolute, List.head?_reverse]
  by_cases h : root = [] ∨ root.getLast? = some '/'
  · rw [if_pos h]
    simp [h]
  · rw [if_neg h]
    simp [h]

/-- Pieces that name something are put behind a path with slashes between them. -/
theorem pushAll_eq {pieces : List (List Char)} (hne : pieces ≠ [])
    (h : ∀ p ∈ pieces, p ≠ [] ∧ '/' ∉ p) (root : List Char) :
    pushAll root pieces = front root ++ join pieces := by
  unfold pushAll
  induction pieces generalizing root with
  | nil => exact absurd rfl hne
  | cons p pieces ih =>
      obtain ⟨⟨hp, hslash⟩, hpieces⟩ := List.forall_mem_cons.mp h
      rw [List.foldl_cons, pushOnto_eq (isAbsolute_of_not_mem hslash)]
      cases pieces with
      | nil => simp [join]
      | cons q pieces =>
          rw [ih (List.cons_ne_nil q pieces) hpieces, front_append_piece hp hslash]
          simp [join]

theorem splitExtension_of_not_mem {name : List Char} (h : '.' ∉ name) :
    splitExtension name = (name, none) := by
  have hdrop : name.reverse.dropWhile (· ≠ '.') = [] := by
    rw [List.dropWhile_eq_nil_iff]
    intro c hc
    have hne : c ≠ '.' := fun heq => h (heq ▸ List.mem_reverse.mp hc)
    simpa using hne
  unfold splitExtension
  rw [hdrop]

/-- A last piece without a dot gets the extension behind it. -/
theorem withExtension_eq {cs p : List Char} (hcs : cs = [] ∨ ∃ ds, cs = ds ++ ['/']) (hp : p ≠ [])
    (hslash : '/' ∉ p) (hdot : '.' ∉ p) (extension : List Char) :
    withExtension (cs ++ p) extension = cs ++ p ++ '.' :: extension := by
  have hself : p ≠ ['.'] := fun h => hdot (by simp [h])
  have hparent : p ≠ ['.', '.'] := fun h => hdot (by simp [h])
  rcases hcs with rfl | ⟨ds, rfl⟩
  · rw [List.nil_append, withExtension, name?, split_of_not_mem hslash]
    simp [trimmed, hp, hself, hparent, splitExtension_of_not_mem hdot, join]
  · rw [List.append_assoc, List.singleton_append, withExtension, name?, split_append_slash,
      split_of_not_mem hslash, List.reverse_append, List.reverse_singleton, List.singleton_append]
    obtain ⟨q, qs, hqs⟩ := List.exists_cons_of_ne_nil
      (fun h => split_ne_nil ds (List.reverse_eq_nil_iff.mp h))
    rw [hqs]
    simp only [trimmed, hp, hself, hparent, or_self, if_false, splitExtension_of_not_mem hdot]
    rw [List.reverse_cons, ← hqs, List.reverse_reverse, join_append_singleton (split_ne_nil ds),
      join_split]
    simp

/-! ### Class files -/

/-- The pieces of the internal name, each of which names a package or the class. -/
def pieces (className : String) : List (List Char) := split (ClassName.internal className).toList

/-- No piece of the internal name is empty. -/
def Named (className : String) : Prop := ∀ p ∈ pieces className, p ≠ []

instance (className : String) : Decidable (Named className) :=
  inferInstanceAs (Decidable (∀ p ∈ pieces className, p ≠ []))

theorem not_mem_internal (className : String) : '.' ∉ (ClassName.internal className).toList := by
  rw [ClassName.internal, String.toList_map, List.mem_map]
  rintro ⟨c, -, hc⟩
  split at hc
  · cases hc
  · rename_i hne
    exact hne hc

theorem not_mem_of_mem_pieces {className : String} {p : List Char} (h : p ∈ pieces className) :
    '/' ∉ p ∧ '.' ∉ p := by
  refine ⟨not_mem_of_mem_split h, fun hdot => not_mem_internal className ?_⟩
  rw [← join_split (ClassName.internal className).toList]
  exact mem_join h hdot

/-- The file of a class lies below the root and is called after the class. -/
theorem toList_ofClass {className : String} (h : Named className) (root : String) :
    (ofClass root className).toList =
      front root.toList ++ (ClassName.internal className).toList ++ ".class".toList := by
  have hpieces : ∀ p ∈ pieces className, p ≠ [] ∧ '/' ∉ p :=
    fun p hp => ⟨h p hp, (not_mem_of_mem_pieces hp).1⟩
  have hjoin : join (pieces className) = (ClassName.internal className).toList := join_split _
  obtain ⟨ps, p, hps⟩ := List.eq_nil_or_concat (pieces className) |>.resolve_left (split_ne_nil _)
  rw [List.concat_eq_append] at hps
  have hp : p ∈ pieces className := by
    rw [hps]
    exact List.mem_append_right _ List.mem_cons_self
  obtain ⟨hslash, hdot⟩ := not_mem_of_mem_pieces hp
  have hpush : pushAll root.toList (pieces className) =
      front root.toList ++ (ClassName.internal className).toList := by
    have hne : pieces className ≠ [] := split_ne_nil _
    rw [pushAll_eq hne hpieces, hjoin]
  have hclass : ".class".toList = '.' :: "class".toList := rfl
  rw [ofClass, String.toList_ofList]
  show withExtension (pushAll root.toList (pieces className)) _ = _
  rw [hpush, hclass, ← hjoin, hps]
  by_cases hnil : ps = []
  · rw [hnil, List.nil_append, join]
    exact withExtension_eq (front_eq _) (h p hp) hslash hdot _
  · rw [join_append_singleton hnil]
    have hback : front root.toList ++ (join ps ++ '/' :: p) =
        front root.toList ++ join ps ++ ['/'] ++ p := by simp
    rw [hback]
    exact withExtension_eq (Or.inr ⟨_, rfl⟩) (h p hp) hslash hdot _

/-- The pieces of a root, but for an empty last one. -/
def rootPieces (root : String) : List (List Char) := (split (front root.toList)).dropLast

/-- The pieces of the file of a class below any root. -/
def filePieces (className : String) : List (List Char) :=
  split ((ClassName.internal className).toList ++ ".class".toList)

theorem split_ofClass {className : String} (h : Named className) (root : String) :
    split (ofClass root className).toList = rootPieces root ++ filePieces className := by
  rw [toList_ofClass h, rootPieces, filePieces, List.append_assoc]
  rcases front_eq root.toList with hfront | ⟨cs, hfront⟩
  · rw [hfront]
    rfl
  · rw [hfront, List.append_assoc, List.singleton_append, split_append_slash, split_append_slash]
    simp [split]

/-- The piece names a file or a directory in the directory that it is looked up in. -/
def Proper (p : List Char) : Prop := p ≠ [] ∧ p ≠ ['.'] ∧ p ≠ ['.', '.']

theorem proper_of_mem_pieces {className : String} {p : List Char} (h : p ∈ pieces className)
    (hne : p ≠ []) : Proper p := by
  have hdot := (not_mem_of_mem_pieces h).2
  exact ⟨hne, fun heq => hdot (by simp [heq]), fun heq => hdot (by simp [heq])⟩

theorem proper_append_class (p : List Char) : Proper (p ++ ".class".toList) := by
  have hlength : 6 ≤ (p ++ ".class".toList).length := by simp
  refine ⟨?_, ?_, ?_⟩ <;> intro heq <;> rw [heq] at hlength <;> simp at hlength

/-- Only the last piece differs from those of the name. -/
theorem mem_filePieces {className : String} {p : List Char} (h : p ∈ filePieces className) :
    p ∈ pieces className ∨ ∃ q, p = q ++ ".class".toList := by
  have hslash : '/' ∉ ".class".toList := by decide
  obtain ⟨ps, q, hpieces, hfile⟩ := split_append hslash (ClassName.internal className).toList
  rw [filePieces, hfile, List.mem_append, List.mem_singleton] at h
  rcases h with hp | hp
  · refine Or.inl ?_
    rw [pieces, hpieces]
    exact List.mem_append_left _ hp
  · exact Or.inr ⟨q, hp⟩

theorem proper_of_mem_filePieces {className : String} (h : Named className) {p : List Char}
    (hp : p ∈ filePieces className) : Proper p := by
  rcases mem_filePieces hp with hp | ⟨q, rfl⟩
  · exact proper_of_mem_pieces hp (h p hp)
  · exact proper_append_class q

/-- Classes with files at the same place below a root have the same internal name. -/
theorem internal_eq_of_filePieces {a b : String} (h : filePieces a = filePieces b) :
    ClassName.internal a = ClassName.internal b := by
  have happend := split_injective h
  exact String.toList_inj.mp (List.append_cancel_right happend)

/-- The name of a class does not decide where its path starts. -/
theorem isAbsolute_ofClass {className : String} (h : Named className) (root : String) :
    isAbsolute (ofClass root className).toList = isAbsolute root.toList := by
  rw [toList_ofClass h]
  cases hroot : root.toList with
  | nil =>
      have hname : isAbsolute (ClassName.internal className).toList = false := by
        cases hinternal : (ClassName.internal className).toList with
        | nil => rfl
        | cons c cs =>
            have hc : c ≠ '/' := by
              rintro rfl
              refine h [] ?_ rfl
              rw [pieces, hinternal]
              exact List.mem_cons_self
            simpa [isAbsolute] using hc
      have hdot : isAbsolute ".class".toList = false := by decide
      unfold isAbsolute at hname hdot ⊢
      rw [front, if_pos (Or.inl rfl), List.nil_append, List.head?_append]
      cases hhead : (ClassName.internal className).toList.head? with
      | none => exact hdot
      | some c =>
          rw [hhead] at hname
          exact hname
  | cons c cs =>
      unfold isAbsolute front
      split <;> simp

end Path

end Retrofit
