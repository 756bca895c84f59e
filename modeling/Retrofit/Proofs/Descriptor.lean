import Mathlib.Data.List.Basic
import Mathlib.Data.List.TakeWhile
import Retrofit.Descriptor

/-!
# Descriptors and types

A field type is read off the front of a text exactly if its descriptor stands there. A method type is
read by cutting the text at its first closing bracket, wherever that stands. So the descriptor of a
method type is read as that type if no class name among its parameters has a closing bracket, and is
refused otherwise. A text that is no descriptor is accepted too, if the last parameter runs over the
cut and into the result.
-/

namespace Retrofit

/-! ### Cutting a text at a character -/

section

variable {c : Char} {front back : List Char}

theorem takeWhile_cut (h : c ∉ front) : (front ++ c :: back).takeWhile (· ≠ c) = front := by
  have hall : ∀ x ∈ front, decide (x ≠ c) = true :=
    fun x hx => decide_eq_true (ne_of_mem_of_not_mem hx h)
  rw [List.takeWhile_append_of_pos hall, List.takeWhile_cons_of_neg (by simp), List.append_nil]

theorem dropWhile_cut (h : c ∉ front) : (front ++ c :: back).dropWhile (· ≠ c) = c :: back := by
  have hall : ∀ x ∈ front, decide (x ≠ c) = true :=
    fun x hx => decide_eq_true (ne_of_mem_of_not_mem hx h)
  rw [List.dropWhile_append_of_pos hall, List.dropWhile_cons_of_neg (by simp)]

/-- A text in which the character occurs is cut where it first occurs. -/
theorem cut_eq {cs : List Char} {d : Char} (h : cs.dropWhile (· ≠ c) = d :: back) :
    c ∉ cs.takeWhile (· ≠ c) ∧ cs = cs.takeWhile (· ≠ c) ++ c :: back := by
  constructor
  · intro hmem
    simpa using List.mem_takeWhile_imp hmem
  · have hd : d = c := by
      have hhead := List.head?_dropWhile_not (fun x => decide (x ≠ c)) cs
      rw [h] at hhead
      simpa using hhead
    calc cs = cs.takeWhile (· ≠ c) ++ cs.dropWhile (· ≠ c) :=
          List.takeWhile_append_dropWhile.symm
      _ = cs.takeWhile (· ≠ c) ++ c :: back := by rw [h, hd]

end

namespace FieldType

/-- The descriptor of a type. -/
def render : FieldType → List Char
  | int => ['I']
  | long => ['J']
  | float => ['F']
  | double => ['D']
  | byte => ['B']
  | char => ['C']
  | short => ['S']
  | boolean => ['Z']
  | void => ['V']
  | reference name => 'L' :: (name.toList ++ [';'])
  | array element => '[' :: element.render

/-- The class name in the type, if there is one, has no semicolon, so its descriptor says where it
ends. -/
def Writable : FieldType → Prop
  | reference name => ';' ∉ name.toList
  | array element => element.Writable
  | _ => True

theorem length_render (t : FieldType) : t.render.length = t.width := by
  induction t with
  | array element ih => rw [render, List.length_cons, ih, width]
  | reference name => simp [render, width, String.length_toList]
  | _ => rfl

theorem render_ne_nil (t : FieldType) : t.render ≠ [] := by
  cases t <;> simp [render]

/-- A type is read off the front of a text exactly if its descriptor stands there. -/
theorem parse?_eq_some_iff {cs rest : List Char} {t : FieldType} :
    parse? cs = some (t, rest) ↔ t.Writable ∧ cs = t.render ++ rest := by
  constructor
  · intro h
    fun_induction parse? cs generalizing t with
    | case10 cs d back hdrop =>
        cases h
        obtain ⟨hname, hcs⟩ := cut_eq hdrop
        refine ⟨by rwa [Writable, String.toList_ofList], ?_⟩
        rw [render, String.toList_ofList, List.cons_append, List.append_assoc]
        exact congrArg _ hcs
    | case12 cs ih =>
        obtain ⟨⟨element, rest'⟩, hparse, hpair⟩ := Option.map_eq_some_iff.mp h
        cases hpair
        obtain ⟨helement, rfl⟩ := ih hparse
        exact ⟨helement, rfl⟩
    | _ =>
        cases h
        all_goals exact ⟨trivial, rfl⟩
  · rintro ⟨ht, rfl⟩
    induction t with
    | reference name =>
        have hname : ';' ∉ name.toList := ht
        have hcs : (reference name).render ++ rest = 'L' :: (name.toList ++ ';' :: rest) := by
          simp [render]
        rw [hcs, parse?, takeWhile_cut hname, dropWhile_cut hname, String.ofList_toList]
    | array element ih => rw [render, List.cons_append, parse?, ih ht, Option.map_some]
    | _ => rfl

theorem ne_bracket_of_render {t : FieldType} {cs back : List Char} :
    t.render ++ cs ≠ ')' :: back := by
  cases t <;> simp [render]

/-- A semicolon ends the descriptor of a class, and a closing bracket stands in class names only. -/
theorem render_ends {t : FieldType} (ht : t.Writable) :
    (';' ∉ t.render ∧ ')' ∉ t.render) ∨ ∃ body, ';' ∉ body ∧ t.render = body ++ [';'] := by
  induction t with
  | reference name =>
      have hname : ';' ∉ name.toList := ht
      exact Or.inr ⟨'L' :: name.toList, by simpa using hname, rfl⟩
  | array element ih =>
      rcases ih ht with ⟨hsemi, hbracket⟩ | ⟨body, hbody, hrender⟩
      · exact Or.inl ⟨by simpa [render] using hsemi, by simpa [render] using hbracket⟩
      · exact Or.inr ⟨'[' :: body, by simpa using hbody, by rw [render, hrender]; rfl⟩
  | _ => exact Or.inl ⟨by simp [render], by simp [render]⟩

theorem nil_of_semicolon {t : FieldType} (ht : t.Writable) {front back : List Char}
    (h : t.render = front ++ ';' :: back) : back = [] := by
  rcases render_ends ht with ⟨hsemi, -⟩ | ⟨body, hbody, hrender⟩
  · simp [h] at hsemi
  · rw [hrender, List.append_cons_inj_of_notMem hbody List.not_mem_nil] at h
    exact h.2.2.symm

theorem semicolon_of_bracket {t : FieldType} (ht : t.Writable) {front back : List Char}
    (h : t.render = front ++ ')' :: back) : ∃ body, back = body ++ [';'] := by
  rcases render_ends ht with ⟨-, hbracket⟩ | ⟨body, -, hrender⟩
  · simp [h] at hbracket
  · have hlast : (front ++ ')' :: back).getLast? = some ';' := by simp [← h, hrender]
    rcases List.eq_nil_or_concat' back with rfl | ⟨rest, c, rfl⟩
    · simp at hlast
    · refine ⟨rest, ?_⟩
      rw [← List.cons_append, ← List.append_assoc, List.getLast?_concat, Option.some_inj] at hlast
      rw [hlast]

/-- Where the text behind a bracket is the descriptor of a type, a type that starts before the
bracket ends before it too, or else at the end of the text. -/
theorem ends_at_bracket {t result : FieldType} (ht : t.Writable) (hresult : result.Writable)
    {rest front : List Char} (h : t.render ++ rest = front ++ ')' :: result.render) :
    (∃ between, front = t.render ++ between ∧ rest = between ++ ')' :: result.render) ∨
      (front.length < t.render.length ∧ rest = []) := by
  rcases List.append_eq_append_iff.mp h with ⟨between, hfront, hrest⟩ | ⟨past, hpast, hrest⟩
  · exact Or.inl ⟨between, hfront, hrest⟩
  · cases past with
    | nil => exact Or.inl ⟨[], by simpa using hpast.symm, hrest.symm⟩
    | cons c past =>
        obtain ⟨rfl, htail⟩ := List.cons.inj hrest
        obtain ⟨body, rfl⟩ := semicolon_of_bracket ht hpast
        have hnil : rest = [] := nil_of_semicolon hresult (by simpa using htail)
        exact Or.inr ⟨by simp [hpast], hnil⟩

/-- The descriptors of the types, one behind the other. -/
def renderAll (ts : List FieldType) : List Char := ts.flatMap render

@[simp] theorem renderAll_nil : renderAll [] = [] := rfl

@[simp] theorem renderAll_cons (t : FieldType) (ts : List FieldType) :
    renderAll (t :: ts) = t.render ++ renderAll ts := rfl

theorem renderAll_eq_nil {ts : List FieldType} (h : renderAll ts = []) : ts = [] := by
  cases ts with
  | nil => rfl
  | cons t ts => exact absurd (List.append_eq_nil_iff.mp h).1 t.render_ne_nil

end FieldType

namespace MethodType

open FieldType (renderAll)

/-- The descriptor of a method type. -/
def render (t : MethodType) : List Char :=
  '(' :: (renderAll t.params ++ ')' :: t.returns.render)

/-- No class name in the type has a semicolon. -/
def Writable (t : MethodType) : Prop := (∀ p ∈ t.params, p.Writable) ∧ t.returns.Writable

/-- No class name in the parameters has a closing bracket. -/
def BracketFree (t : MethodType) : Prop := ')' ∉ renderAll t.params

instance (t : MethodType) : Decidable t.BracketFree :=
  inferInstanceAs (Decidable (')' ∉ renderAll t.params))

/-- What a text is read as. The result is what stands behind the first closing bracket. The
parameters end right before that bracket, or the last one runs over it and takes all that is left. -/
def ReadsAs (text : List Char) (t : MethodType) : Prop :=
  t.Writable ∧ ∃ front, ')' ∉ front ∧ text = '(' :: (front ++ ')' :: t.returns.render) ∧
    (renderAll t.params = front ∨ renderAll t.params = front ++ ')' :: t.returns.render)

section

variable {result : FieldType} {front : List Char} {ts : List FieldType}

/-- The parameters that are read up to the bracket end there, or the last one takes all the rest. -/
theorem of_paramsFrom? (hresult : result.Writable)
    (h : paramsFrom? front.length (front ++ ')' :: result.render) = some ts) :
    (∀ t ∈ ts, t.Writable) ∧
      (renderAll ts = front ∨ renderAll ts = front ++ ')' :: result.render) := by
  generalize hn : front.length = n, hcs : front ++ ')' :: result.render = cs at h
  -- the text behind the bracket stays the same while what stands before it is read
  fun_induction paramsFrom? n cs generalizing front ts with
  | case1 cs =>
      cases h
      exact ⟨by simp, Or.inl (List.eq_nil_of_length_eq_zero hn).symm⟩
  | case2 before cs hparse => cases h
  | case3 before cs t rest hparse ih =>
      obtain ⟨ts', hts', rfl⟩ := Option.map_eq_some_iff.mp h
      obtain ⟨ht, rfl⟩ := FieldType.parse?_eq_some_iff.mp hparse
      rw [← FieldType.length_render] at hts' ih
      rcases FieldType.ends_at_bracket ht hresult hcs.symm with
        ⟨between, rfl, rfl⟩ | ⟨hlength, rfl⟩
      · have hbetween : between.length = before + 1 - t.render.length := by
          rw [List.length_append] at hn
          omega
        obtain ⟨hwritable, htext⟩ := ih hbetween rfl hts'
        exact ⟨List.forall_mem_cons.mpr ⟨ht, hwritable⟩, by simpa using htext⟩
      · have hpast : before + 1 - t.render.length = 0 := by omega
        rw [hpast, paramsFrom?] at hts'
        cases hts'
        exact ⟨by simpa using ht, Or.inr (by simp)⟩

theorem paramsFrom?_cons {t : FieldType} (ht : t.Writable) {before : Nat} (hpos : 0 < before)
    (rest : List Char) :
    paramsFrom? before (t.render ++ rest) =
      (paramsFrom? (before - t.render.length) rest).map (t :: ·) := by
  obtain ⟨n, rfl⟩ := Nat.exists_eq_add_one.mpr hpos
  have hparse : FieldType.parse? (t.render ++ rest) = some (t, rest) :=
    FieldType.parse?_eq_some_iff.mpr ⟨ht, rfl⟩
  rw [paramsFrom?, hparse, FieldType.length_render]

/-- Conversely, such parameters are read. -/
theorem paramsFrom?_of (hwritable : ∀ t ∈ ts, t.Writable) (hresult : result.Writable)
    (h : renderAll ts = front ∨ renderAll ts = front ++ ')' :: result.render) :
    paramsFrom? front.length (front ++ ')' :: result.render) = some ts := by
  induction ts generalizing front with
  | nil =>
      rcases h with rfl | h
      · exact paramsFrom?.eq_1 _
      · simp at h
  | cons t ts ih =>
      obtain ⟨ht, hts⟩ := List.forall_mem_cons.mp hwritable
      have hends : (∃ between, front = t.render ++ between ∧
            (renderAll ts = between ∨ renderAll ts = between ++ ')' :: result.render)) ∨
          (front.length < t.render.length ∧ t.render ++ renderAll ts = front ++ ')' :: result.render
            ∧ renderAll ts = []) := by
        rcases h with h | h
        · exact Or.inl ⟨_, h.symm, Or.inl rfl⟩
        · rcases FieldType.ends_at_bracket ht hresult h with ⟨between, hfront, hrest⟩ | ⟨hlt, hrest⟩
          · exact Or.inl ⟨between, hfront, Or.inr hrest⟩
          · exact Or.inr ⟨hlt, h, hrest⟩
      rcases hends with ⟨between, rfl, htext⟩ | ⟨hlt, htext, hnil⟩
      · have hpos : 0 < (t.render ++ between).length := by
          rw [List.length_append, FieldType.length_render]
          exact Nat.add_pos_left t.width_pos _
        rw [List.append_assoc, paramsFrom?_cons ht hpos, List.length_append,
          Nat.add_sub_cancel_left, ih hts htext, Option.map_some]
      · have hpos : 0 < front.length := by
          rw [List.length_pos_iff]
          rintro rfl
          exact FieldType.ne_bracket_of_render htext
        rw [← htext, paramsFrom?_cons ht hpos, Nat.sub_eq_zero_of_le hlt.le,
          FieldType.renderAll_eq_nil hnil, paramsFrom?, Option.map_some]

end

/-- The first bracket of a text is where it is cut. -/
theorem parse?_eq_some_iff {text : String} {t : MethodType} :
    parse? text = some t ↔ ReadsAs text.toList t := by
  constructor
  · intro h
    unfold parse? at h
    split at h
    · rename_i cs htext
      split at h
      · cases h
      · rename_i c back hdrop
        obtain ⟨hfront, hcs⟩ := cut_eq hdrop
        obtain ⟨params, hparams, h⟩ := Option.bind_eq_some_iff.mp h
        split at h
        · rename_i returns hreturns
          cases h
          obtain ⟨hwritable, hback⟩ := FieldType.parse?_eq_some_iff.mp hreturns
          rw [List.append_nil] at hback
          subst hback
          have hcut : paramsFrom? (cs.takeWhile (· ≠ ')')).length
              (cs.takeWhile (· ≠ ')') ++ ')' :: returns.render) = some params := by
            rw [← hcs]
            exact hparams
          obtain ⟨hall, hends⟩ := of_paramsFrom? hwritable hcut
          exact ⟨⟨hall, hwritable⟩, _, hfront, by rw [htext, ← hcs], hends⟩
        · cases h
    · cases h
  · rintro ⟨⟨hall, hreturns⟩, front, hfront, htext, hends⟩
    have hresult : FieldType.parse? t.returns.render = some (t.returns, []) :=
      FieldType.parse?_eq_some_iff.mpr ⟨hreturns, (List.append_nil _).symm⟩
    simp only [parse?, htext, dropWhile_cut hfront, takeWhile_cut hfront,
      paramsFrom?_of hall hreturns hends, hresult, Option.bind_some, bind, pure]

/-- Behind a closing bracket in the parameters there is a semicolon: it stands in a class name. -/
theorem semicolon_mem_of_bracket {ts : List FieldType} (hts : ∀ t ∈ ts, t.Writable)
    {front back : List Char} (h : renderAll ts = front ++ ')' :: back) : ';' ∈ back := by
  induction ts generalizing front with
  | nil => simp at h
  | cons t ts ih =>
      obtain ⟨ht, hrest⟩ := List.forall_mem_cons.mp hts
      rcases List.append_eq_append_iff.mp h with ⟨between, -, hrender⟩ | ⟨past, hpast, hback⟩
      · exact ih hrest hrender
      · cases past with
        | nil => exact ih hrest (show renderAll ts = [] ++ ')' :: back from hback.symm)
        | cons c past =>
            obtain ⟨rfl, rfl⟩ := List.cons.inj hback
            obtain ⟨body, rfl⟩ := FieldType.semicolon_of_bracket ht hpast
            simp

/-- Cut at a bracket in a class name, the descriptor of a method type leaves no result. -/
theorem bracketFree_of_readsAs {t s : MethodType} (ht : t.Writable) (h : ReadsAs t.render s) :
    t.BracketFree := by
  obtain ⟨⟨-, hresult⟩, front, hfront, htext, -⟩ := h
  obtain ⟨-, hcut⟩ := List.cons.inj htext
  rcases List.append_eq_append_iff.mp hcut with ⟨past, rfl, -⟩ | ⟨past, hpast, hback⟩
  · exact fun hmem => hfront (List.mem_append_left _ hmem)
  · cases past with
    | nil =>
        rw [List.append_nil] at hpast
        rwa [BracketFree, hpast]
    | cons c past =>
        obtain ⟨rfl, hrender⟩ := List.cons.inj hback
        obtain ⟨a, b, rfl⟩ := List.append_of_mem (semicolon_mem_of_bracket ht.1 hpast)
        have hnil := FieldType.nil_of_semicolon hresult (hrender.trans (List.append_assoc _ _ _))
        simp at hnil

theorem readsAs_render_iff {t : MethodType} (ht : t.Writable) :
    ReadsAs t.render t ↔ t.BracketFree :=
  ⟨bracketFree_of_readsAs ht, fun hfree => ⟨ht, _, hfree, rfl, Or.inl rfl⟩⟩

/-- Without closing brackets in class names, what is read as a type is its descriptor. -/
theorem eq_render_of_readsAs {text : List Char} {t : MethodType} (h : ReadsAs text t)
    (hfree : t.BracketFree) : text = t.render := by
  obtain ⟨-, front, -, rfl, rfl | hover⟩ := h
  · rfl
  · exact absurd (hover ▸ List.mem_append_right _ List.mem_cons_self) hfree

/-- A text is accepted exactly if it is cut, at its first closing bracket, into parameters and a
result. The descriptor of a type is read as that type or not at all, and a text read as a type is its
descriptor or runs over the bracket; a closing bracket in a class name decides which. -/
theorem parse?_accepts (text : String) (t : MethodType) :
    (parse? text = some t ↔ ReadsAs text.toList t) ∧
      (t.Writable → text.toList = t.render →
        parse? text = if t.BracketFree then some t else none) ∧
      (parse? text = some t → (text.toList = t.render ↔ t.BracketFree)) := by
  refine ⟨parse?_eq_some_iff, ?_, ?_⟩
  · intro ht htext
    split
    next hfree => exact parse?_eq_some_iff.mpr (htext ▸ (readsAs_render_iff ht).mpr hfree)
    next hfree =>
      rw [Option.eq_none_iff_forall_ne_some]
      intro s hs
      exact hfree (bracketFree_of_readsAs ht (htext ▸ parse?_eq_some_iff.mp hs))
  · intro h
    obtain ⟨ht, front, hfront, htext, hends⟩ := parse?_eq_some_iff.mp h
    have hsame : text.toList = t.render ↔ front = renderAll t.params := by
      rw [htext, render, List.cons.injEq, List.append_left_inj]
      simp
    rw [hsame]
    constructor
    · rintro rfl
      exact hfront
    · intro hfree
      rcases hends with hends | hends
      · exact hends.symm
      · exact absurd (hends ▸ List.mem_append_right _ List.mem_cons_self) hfree

/-- From an object to a list. -/
def listFactory : MethodType := ⟨[.reference "java/lang/Object"], .reference "java/util/List"⟩

/-- A method type with a closing bracket in the class name of its parameter. -/
def bracketed : MethodType := ⟨[.reference "a)b"], .void⟩

theorem parse?_accepts_listFactory :
    ReadsAs "(Ljava/lang/Object;)Ljava/util/List;".toList listFactory ∧ listFactory.BracketFree := by
  have hparse : parse? "(Ljava/lang/Object;)Ljava/util/List;" = some listFactory := by cbv
  obtain ⟨hreads, -, hrender⟩ := parse?_accepts "(Ljava/lang/Object;)Ljava/util/List;" listFactory
  exact ⟨hreads.mp hparse, (hrender hparse).mp (by decide)⟩

/-- A text that is no descriptor is accepted where a semicolon is missing before the bracket, and the
descriptor of a type is refused where a class name has a bracket. -/
theorem parse?_ne_render :
    (parse? "(Ljava/lang/Object)Ljava/util/List;" =
        some ⟨[.reference "java/lang/Object)Ljava/util/List"], .reference "java/util/List"⟩ ∧
      "(Ljava/lang/Object)Ljava/util/List;".toList ≠
        render ⟨[.reference "java/lang/Object)Ljava/util/List"], .reference "java/util/List"⟩) ∧
    (bracketed.Writable ∧ "(La)b;)V".toList = bracketed.render ∧ parse? "(La)b;)V" = none) := by
  refine ⟨⟨by cbv, by decide⟩, ⟨?_, trivial⟩, by decide, by cbv⟩
  simp [bracketed, FieldType.Writable]

end MethodType

end Retrofit
