import Retrofit.Pool

/-!
# Growing pools

Interning only appends to a pool. So an index keeps its meaning for good, and what was interned once
is found again at the same index however much the pool has grown since; asking for it a second time
appends nothing. A pool that was appended to states the size that it has.
-/

namespace Retrofit

/-- A constant of one of the kinds that are interned, with the property `T` if it is text. -/
def Constant.Interned (T : List UInt8 → Prop) : Constant → Prop
  | utf8 bs => T bs
  | classInfo _ | nameAndType _ _ | methodRef _ _ | interfaceMethodRef _ _ => True
  | _ => False

namespace Pool

/-- The pool `q` has the entries of `p`, and behind them entries with the property `P`. -/
def Grows (P : Constant → Prop) (p q : Pool) : Prop :=
  ∃ cs : List Constant, q.entries = p.entries ++ cs.toArray ∧ ∀ c ∈ cs, P c

namespace Grows

variable {P : Constant → Prop} {p q r : Pool}

theorem refl (P : Constant → Prop) (p : Pool) : Grows P p p :=
  ⟨[], Array.append_empty.symm, by simp⟩

theorem trans (hpq : Grows P p q) (hqr : Grows P q r) : Grows P p r := by
  obtain ⟨cs, hq, hcs⟩ := hpq
  obtain ⟨ds, hr, hds⟩ := hqr
  refine ⟨cs ++ ds, ?_, ?_⟩
  · rw [hr, hq]
    simp
  · intro c hc
    obtain hc | hc := List.mem_append.mp hc
    · exact hcs c hc
    · exact hds c hc

theorem mono {Q : Constant → Prop} (h : Grows P p q) (hPQ : ∀ c, P c → Q c) : Grows Q p q := by
  obtain ⟨cs, hq, hcs⟩ := h
  exact ⟨cs, hq, fun c hc => hPQ c (hcs c hc)⟩

theorem push {c : Constant} (hc : P c) : Grows P p (p.push c).1 := by
  refine ⟨[c], ?_, by simpa using hc⟩
  simp [Pool.push]

/-- An index keeps its constant. -/
theorem constant?_eq (h : Grows P p q) {i : UInt16} {c : Constant} (hc : p.constant? i = some c) :
    q.constant? i = some c := by
  obtain ⟨cs, hq, -⟩ := h
  unfold constant? at hc ⊢
  split at hc
  · cases hc
  · rename_i hi
    have hlt := (Array.getElem?_eq_some_iff.mp hc).1
    rw [if_neg hi, hq, Array.getElem?_append_left hlt, hc]

/-- An index that has a constant had it before, or has an entry with the property now. -/
theorem constant?_or (h : Grows P p q) {i : UInt16} {c : Constant} (hc : q.constant? i = some c) :
    p.constant? i = some c ∨ (p.constant? i = none ∧ P c) := by
  obtain ⟨cs, hq, hcs⟩ := h
  unfold constant? at hc ⊢
  split at hc
  · cases hc
  · rename_i hi
    rw [if_neg hi]
    rw [hq] at hc
    by_cases hlt : i.toNat - 1 < p.entries.size
    · rw [Array.getElem?_append_left hlt] at hc
      exact Or.inl hc
    · rw [Array.getElem?_append_right (Nat.le_of_not_lt hlt), List.getElem?_toArray] at hc
      exact Or.inr ⟨Array.getElem?_eq_none (Nat.le_of_not_lt hlt), hcs c (List.mem_of_getElem? hc)⟩

theorem text?_eq (h : Grows P p q) {i : UInt16} {t : String} (ht : p.text? i = some t) :
    q.text? i = some t := by
  unfold text? at ht ⊢
  split at ht
  · rename_i bs hbs
    rw [h.constant?_eq hbs]
    exact ht
  · cases ht

theorem className?_eq (h : Grows P p q) {i : UInt16} {n : String} (hn : p.className? i = some n) :
    q.className? i = some n := by
  unfold className? at hn ⊢
  split at hn
  · rename_i name hname
    rw [h.constant?_eq hname]
    exact h.text?_eq hn
  · cases hn

/-- An index that names a text named it before, or is the index of a new text entry. -/
theorem text?_or {T : List UInt8 → Prop} (h : Grows (Constant.Interned T) p q) {i : UInt16}
    {t : String} (ht : q.text? i = some t) :
    p.text? i = some t ∨ ∃ bs, T bs ∧ textOfBytes? bs = some t := by
  unfold text? at ht ⊢
  split at ht
  · rename_i bs hbs
    obtain hold | ⟨-, hnew⟩ := h.constant?_or hbs
    · rw [hold]
      exact Or.inl ht
    · exact Or.inr ⟨bs, hnew, ht⟩
  · cases ht

/-- The first entry that passes a test stays the first one. -/
theorem indexOf?_eq (h : Grows P p q) {test : Constant → Bool} {i : UInt16}
    (hi : p.indexOf? test = some i) : q.indexOf? test = some i := by
  obtain ⟨cs, hq, -⟩ := h
  unfold indexOf? at hi ⊢
  obtain ⟨k, hk, rfl⟩ := Option.map_eq_some_iff.mp hi
  rw [hq, Array.findIdx?_append, hk]
  rfl

end Grows

/-! ### Interning -/

/-- A way to get an answer from a pool: at most `n` entries are appended, all with the property `P`,
and the same answer is had again without appending anything. -/
structure Interns {α : Type} (P : Constant → Prop) (n : Nat) (f : Pool → Pool × α) : Prop where
  grows : ∀ p, Grows P p (f p).1
  size_le : ∀ p, (f p).1.entries.size ≤ p.entries.size + n
  again : ∀ p q, Grows (fun _ => True) (f p).1 q → f q = (q, (f p).2)

namespace Interns

variable {P : Constant → Prop} {α β : Type}

/-- An answer that does not need the pool. -/
theorem pure (P : Constant → Prop) (a : α) : Interns P 0 fun p => (p, a) :=
  ⟨.refl P, fun _ => Nat.le_refl _, fun _ _ _ => rfl⟩

theorem map {n : Nat} {f : Pool → Pool × α} (g : α → β) (hf : Interns P n f) :
    Interns P n fun p => ((f p).1, g (f p).2) := by
  refine ⟨hf.grows, hf.size_le, fun p q hq => ?_⟩
  rw [hf.again p q hq]

/-- One way after the other, the second one told the answer of the first. -/
theorem bind {n m : Nat} {f : Pool → Pool × α} {g : α → Pool → Pool × β} (hf : Interns P n f)
    (hg : ∀ a, Interns P m (g a)) : Interns P (n + m) fun p => g (f p).2 (f p).1 := by
  constructor
  · intro p
    exact (hf.grows p).trans ((hg _).grows _)
  · intro p
    have hn := hf.size_le p
    have hm := (hg (f p).2).size_le (f p).1
    omega
  · intro p q hq
    have hmid := (((hg (f p).2).grows (f p).1).mono fun _ _ => trivial).trans hq
    rw [hf.again p q hmid]
    exact (hg _).again _ q hq

end Interns

variable {P : Constant → Prop}

theorem intern_interns {test : Constant → Bool} {c : Constant} (htest : test c = true) (hc : P c) :
    Interns P 1 fun p => p.intern test c := by
  constructor
  · intro p
    dsimp only [intern]
    split
    · exact .refl P p
    · exact .push hc
  · intro p
    dsimp only [intern]
    split
    · exact Nat.le_succ _
    · simp [Pool.push]
  · intro p q hq
    dsimp only [intern] at hq ⊢
    split at hq
    · rename_i i hi
      rw [hq.indexOf?_eq hi]
    · rename_i hnone
      have hfound : (p.push c).1.indexOf? test = some (p.push c).2 := by
        unfold indexOf? at hnone ⊢
        have hnone := Option.map_eq_none_iff.mp hnone
        simp [Pool.push, Array.findIdx?_push, hnone, htest]
      rw [hq.indexOf?_eq hfound]

variable {T : List UInt8 → Prop}

theorem internText_interns {t : String} (ht : T (bytesOfText t)) :
    Interns (Constant.Interned T) 1 fun p => p.internText t :=
  intern_interns (by simp) ht

theorem internClass_interns {name : String} (hname : T (bytesOfText name)) :
    Interns (Constant.Interned T) 2 fun p => p.internClass name := by
  have hclass (n : UInt16) : Interns (Constant.Interned T) 1 fun p =>
      p.intern (· == .classInfo n) (.classInfo n) := intern_interns (by simp) trivial
  exact (internText_interns hname).bind hclass

theorem internNameAndType_interns {name descriptor : String} (hname : T (bytesOfText name))
    (hdescriptor : T (bytesOfText descriptor)) :
    Interns (Constant.Interned T) 3 fun p => p.internNameAndType name descriptor := by
  have hpair (n d : UInt16) : Interns (Constant.Interned T) 1 fun p =>
      p.intern (· == .nameAndType n d) (.nameAndType n d) := intern_interns (by simp) trivial
  exact (internText_interns hname).bind fun n => (internText_interns hdescriptor).bind (hpair n)

theorem internMethod_interns {owner name descriptor : String} (howner : T (bytesOfText owner))
    (hname : T (bytesOfText name)) (hdescriptor : T (bytesOfText descriptor)) (interface : Bool) :
    Interns (Constant.Interned T) 6 fun p => p.internMethod owner name descriptor interface := by
  have hmethod (o nt : UInt16) : Interns (Constant.Interned T) 1 fun p =>
      p.intern (· == if interface then .interfaceMethodRef o nt else .methodRef o nt)
        (if interface then .interfaceMethodRef o nt else .methodRef o nt) := by
    refine intern_interns (by simp) ?_
    cases interface <;> exact trivial
  exact (internClass_interns howner).bind fun o =>
    (internNameAndType_interns hname hdescriptor).bind (hmethod o)

/-! ### The stated size of a pool -/

/-- The pool is the same, or it states the size that it has. -/
def Restated (p q : Pool) : Prop := q = p ∨ q.statedSize = UInt16.ofNat (q.entries.size + 1)

theorem Restated.trans {p q r : Pool} (hpq : p.Restated q) (hqr : q.Restated r) : p.Restated r := by
  rcases hqr with rfl | hsize
  · exact hpq
  · exact Or.inr hsize

/-- The size is stated in 16 bits as it is, if there is an index for each entry. -/
theorem toNat_succ_size {p : Pool} (h : p.entries.size ≤ 65534) :
    (UInt16.ofNat (p.entries.size + 1)).toNat = p.entries.size + 1 :=
  UInt16.toNat_ofNat_of_lt' (by show _ < 65536; omega)

theorem Restated.toNat_eq {p q : Pool} (h : p.Restated q) (hsize : q.entries.size ≤ 65534) :
    q = p ∨ q.statedSize.toNat = q.entries.size + 1 :=
  h.imp_right fun hstated => by rw [hstated, toNat_succ_size hsize]

theorem intern_restated (p : Pool) (test : Constant → Bool) (c : Constant) :
    p.Restated (p.intern test c).1 := by
  unfold intern
  split
  · exact Or.inl rfl
  · exact Or.inr rfl

theorem internText_restated (p : Pool) (text : String) : p.Restated (p.internText text).1 :=
  p.intern_restated _ _

theorem internClass_restated (p : Pool) (name : String) : p.Restated (p.internClass name).1 :=
  (p.internText_restated name).trans (intern_restated _ _ _)

theorem internNameAndType_restated (p : Pool) (name descriptor : String) :
    p.Restated (p.internNameAndType name descriptor).1 :=
  ((p.internText_restated name).trans (internText_restated _ descriptor)).trans
    (intern_restated _ _ _)

theorem internMethod_restated (p : Pool) (owner name descriptor : String) (interface : Bool) :
    p.Restated (p.internMethod owner name descriptor interface).1 :=
  ((p.internClass_restated owner).trans (internNameAndType_restated _ name descriptor)).trans
    (intern_restated _ _ _)

/-- The pool `q` has the entries of `p` and maybe more behind them, and then states their number. -/
structure Appended (p q : Pool) : Prop where
  grows : p.Grows (fun _ => True) q
  restated : p.Restated q

end Pool

end Retrofit
