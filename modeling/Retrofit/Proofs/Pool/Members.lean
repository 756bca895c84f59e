import Retrofit.Proofs.Pool.Growth
import Retrofit.Proofs.Pool.Naming

/-!
# Members that a pool names

What was interned is named by the index it was given, as long as the pool has an index for each of its
entries. A pool that grows goes on naming a member by the same index. It may come to name one by an
index that named none before, but only where that index leads to a place past the end of the pool.
-/

namespace Retrofit

namespace Constant

/-- The indexes of the entries that an entry refers to. -/
def references : Constant → List UInt16
  | classInfo name | moduleInfo name | packageInfo name => [name]
  | string text => [text]
  | fieldRef owner nt | methodRef owner nt | interfaceMethodRef owner nt => [owner, nt]
  | nameAndType name descriptor => [name, descriptor]
  | methodHandle _ reference => [reference]
  | methodType descriptor => [descriptor]
  | dynamic _ nt | invokeDynamic _ nt => [nt]
  | _ => []

end Constant

namespace Pool

/-- From entry to entry the index `i` leads to `j`. -/
inductive Reaches (p : Pool) (i : UInt16) : UInt16 → Prop
  | refl : Reaches p i i
  | step {j k : UInt16} {c : Constant} (h : Reaches p i j) (hc : p.constant? j = some c)
      (hk : k ∈ c.references) : Reaches p i k

/-- The index does not lead past the end of the pool. -/
def Enclosed (p : Pool) (i : UInt16) : Prop := ∀ j, p.Reaches i j → j.toNat ≤ p.entries.size

theorem Reaches.trans {p : Pool} {i j k : UInt16} (hij : p.Reaches i j) (hjk : p.Reaches j k) :
    p.Reaches i k := by
  induction hjk with
  | refl => exact hij
  | step _ hc hk ih => exact ih.step hc hk

theorem Enclosed.reference {p : Pool} {i k : UInt16} {c : Constant} (h : p.Enclosed i)
    (hc : p.constant? i = some c) (hk : k ∈ c.references) : p.Enclosed k :=
  fun j hj => h j ((Reaches.refl.step hc hk).trans hj)

/-- In a pool whose entries do not refer past the end no index leads there. -/
theorem enclosed_of_references {p : Pool}
    (h : ∀ c ∈ p.entries, ∀ k ∈ c.references, k.toNat ≤ p.entries.size) {i : UInt16}
    (hi : i.toNat ≤ p.entries.size) : p.Enclosed i := by
  intro j hj
  induction hj with
  | refl => exact hi
  | step _ hc hk _ =>
      unfold constant? at hc
      split at hc
      · cases hc
      · exact h _ (Array.mem_of_getElem? hc) _ hk

namespace Grows

variable {P : Constant → Prop} {p q : Pool} (h : Grows P p q)

include h

theorem size_le : p.entries.size ≤ q.entries.size := by
  obtain ⟨cs, hq, -⟩ := h
  rw [hq, Array.size_append]
  exact Nat.le_add_right _ _

theorem nameAndType?_eq {i : UInt16} {x : String × String} (hx : p.nameAndType? i = some x) :
    q.nameAndType? i = some x := by
  unfold nameAndType? at hx ⊢
  split at hx
  · rename_i name descriptor hnt
    simp only [Option.bind_eq_bind, Option.bind_eq_some_iff] at hx
    obtain ⟨n, hn, d, hd, hx⟩ := hx
    rw [h.constant?_eq hnt]
    dsimp only
    rw [h.text?_eq hn, h.text?_eq hd]
    exact hx
  · cases hx

theorem resolve_eq {owner nt : UInt16} {interface : Bool} {m : MemberRef}
    (hm : member?.resolve p owner nt interface = some m) :
    member?.resolve q owner nt interface = some m := by
  unfold member?.resolve at hm ⊢
  simp only [Option.bind_eq_bind, Option.bind_eq_some_iff] at hm
  obtain ⟨o, ho, x, hx, hm⟩ := hm
  rw [h.className?_eq ho, h.nameAndType?_eq hx]
  exact hm

/-- An index goes on naming the same member. -/
theorem member?_eq {i : UInt16} {m : MemberRef} (hm : p.member? i = some m) :
    q.member? i = some m := by
  unfold member? at hm ⊢
  split at hm
  · rename_i owner nt hc
    rw [h.constant?_eq hc]
    exact h.resolve_eq hm
  · rename_i owner nt hc
    rw [h.constant?_eq hc]
    exact h.resolve_eq hm
  · rename_i owner nt hc
    rw [h.constant?_eq hc]
    exact h.resolve_eq hm
  · cases hm

/-- An index within the pool goes on to have the same constant, or none. -/
theorem constant?_of_le {i : UInt16} (hi : i.toNat ≤ p.entries.size) :
    q.constant? i = p.constant? i := by
  obtain ⟨cs, hq, -⟩ := h
  unfold constant?
  split
  · rfl
  · rename_i hne
    have hpos : i.toNat ≠ 0 := fun hzero => hne (UInt16.toNat_inj.mp hzero)
    rw [hq, Array.getElem?_append_left (by omega)]

theorem text?_of_le {i : UInt16} (hi : i.toNat ≤ p.entries.size) : q.text? i = p.text? i := by
  rw [text?, text?, h.constant?_of_le hi]

/-! ### Indexes that do not lead past the end -/

theorem constant?_of_enclosed {i : UInt16} (hi : p.Enclosed i) : q.constant? i = p.constant? i :=
  h.constant?_of_le (hi i .refl)

theorem text?_of_enclosed {i : UInt16} (hi : p.Enclosed i) : q.text? i = p.text? i :=
  h.text?_of_le (hi i .refl)

theorem className?_of_enclosed {i : UInt16} (hi : p.Enclosed i) : q.className? i = p.className? i := by
  rw [className?, className?, h.constant?_of_enclosed hi]
  split
  · rename_i name hname
    exact h.text?_of_enclosed (hi.reference hname List.mem_cons_self)
  · rfl

theorem nameAndType?_of_enclosed {i : UInt16} (hi : p.Enclosed i) :
    q.nameAndType? i = p.nameAndType? i := by
  rw [nameAndType?, nameAndType?, h.constant?_of_enclosed hi]
  split
  · rename_i name descriptor hnt
    rw [h.text?_of_enclosed (hi.reference hnt (by simp [Constant.references])),
      h.text?_of_enclosed (hi.reference hnt (by simp [Constant.references]))]
  · rfl

theorem resolve_of_enclosed {owner nt : UInt16} (howner : p.Enclosed owner) (hnt : p.Enclosed nt)
    (interface : Bool) :
    member?.resolve q owner nt interface = member?.resolve p owner nt interface := by
  rw [member?.resolve, member?.resolve, h.className?_of_enclosed howner,
    h.nameAndType?_of_enclosed hnt]

/-- An index that does not lead past the end names what it named before. -/
theorem member?_of_enclosed {i : UInt16} (hi : p.Enclosed i) : q.member? i = p.member? i := by
  have hreference {owner nt : UInt16} {c : Constant} (hc : p.constant? i = some c)
      (hreferences : c.references = [owner, nt]) : p.Enclosed owner ∧ p.Enclosed nt :=
    ⟨hi.reference hc (by simp [hreferences]), hi.reference hc (by simp [hreferences])⟩
  rw [member?, member?, h.constant?_of_enclosed hi]
  split
  · rename_i owner nt hc
    obtain ⟨howner, hnt⟩ := hreference hc rfl
    exact h.resolve_of_enclosed howner hnt false
  · rename_i owner nt hc
    obtain ⟨howner, hnt⟩ := hreference hc rfl
    exact h.resolve_of_enclosed howner hnt false
  · rename_i owner nt hc
    obtain ⟨howner, hnt⟩ := hreference hc rfl
    exact h.resolve_of_enclosed howner hnt true
  · rfl

end Grows

/-! ### What was interned -/

theorem constant?_ofNat {p : Pool} {k : Nat} {c : Constant} (hsize : p.entries.size ≤ 65534)
    (hc : p.entries[k]? = some c) : p.constant? (UInt16.ofNat (k + 1)) = some c := by
  have hlt := (Array.getElem?_eq_some_iff.mp hc).1
  have hnat : (UInt16.ofNat (k + 1)).toNat = k + 1 :=
    UInt16.toNat_ofNat_of_lt' (by show k + 1 < 65536; omega)
  have hne : UInt16.ofNat (k + 1) ≠ 0 := by
    intro hzero
    rw [hzero] at hnat
    cases hnat
  rw [constant?, if_neg hne, hnat, Nat.add_sub_cancel]
  exact hc

/-- What is interned passes the test by which it is looked for. -/
theorem intern_constant? {p : Pool} {test : Constant → Bool} {c : Constant} (htest : test c = true)
    (hsize : (p.intern test c).1.entries.size ≤ 65534) :
    ∃ c', (p.intern test c).1.constant? (p.intern test c).2 = some c' ∧ test c' = true := by
  unfold intern at hsize ⊢
  split
  · rename_i i hi
    rw [hi] at hsize
    obtain ⟨k, hk, rfl⟩ := Option.map_eq_some_iff.mp hi
    obtain ⟨hlt, hpass, -⟩ := Array.findIdx?_eq_some_iff_getElem.mp hk
    exact ⟨p.entries[k], constant?_ofNat hsize (Array.getElem?_eq_getElem hlt), hpass⟩
  · rename_i hnone
    rw [hnone] at hsize
    refine ⟨c, ?_, htest⟩
    rw [push, Array.size_push]
    exact constant?_ofNat hsize (by simp)

theorem intern_eq_constant? {p : Pool} {c : Constant}
    (hsize : (p.intern (· == c) c).1.entries.size ≤ 65534) :
    (p.intern (· == c) c).1.constant? (p.intern (· == c) c).2 = some c := by
  obtain ⟨c', hc', htest⟩ := intern_constant? (by simp) hsize
  rw [hc', eq_of_beq htest]

theorem internText_text? {p : Pool} {t : String} (hsize : (p.internText t).1.entries.size ≤ 65534) :
    (p.internText t).1.text? (p.internText t).2 = some t := by
  have hintern : p.internText t = p.intern _ (.utf8 (bytesOfText t)) := rfl
  rw [hintern] at hsize ⊢
  obtain ⟨c, hc, htest⟩ := intern_constant? (by simp) hsize
  unfold text?
  rw [hc]
  split at htest
  · rw [eq_of_beq htest]
    exact textOfBytes?_bytesOfText t
  · cases htest

theorem intern_grows (p : Pool) (test : Constant → Bool) (c : Constant) :
    Grows (fun _ => True) p (p.intern test c).1 := by
  unfold intern
  split
  · exact .refl _ p
  · exact .push trivial

theorem internText_grows (p : Pool) (t : String) : Grows (fun _ => True) p (p.internText t).1 :=
  intern_grows p _ _

section

variable {p : Pool}

theorem internClass_className? {name : String}
    (hsize : (p.internClass name).1.entries.size ≤ 65534) :
    (p.internClass name).1.className? (p.internClass name).2 = some name := by
  have hgrows : Grows (fun _ => True) (p.internText name).1 (p.internClass name).1 :=
    intern_grows _ _ _
  have htext := internText_text? (Nat.le_trans hgrows.size_le hsize)
  have hclass : (p.internClass name).1.constant? (p.internClass name).2 =
      some (.classInfo (p.internText name).2) := intern_eq_constant? hsize
  unfold className?
  rw [hclass]
  exact hgrows.text?_eq htext

theorem internNameAndType_nameAndType? {name descriptor : String}
    (hsize : (p.internNameAndType name descriptor).1.entries.size ≤ 65534) :
    (p.internNameAndType name descriptor).1.nameAndType? (p.internNameAndType name descriptor).2 =
      some (name, descriptor) := by
  have hgrows : Grows (fun _ => True) ((p.internText name).1.internText descriptor).1
      (p.internNameAndType name descriptor).1 := intern_grows _ _ _
  have hgrows' := ((p.internText name).1.internText_grows descriptor).trans hgrows
  have hname := internText_text? (Nat.le_trans hgrows'.size_le hsize)
  have hdescriptor := internText_text? (Nat.le_trans hgrows.size_le hsize)
  have hpair : (p.internNameAndType name descriptor).1.constant?
      (p.internNameAndType name descriptor).2 = some (.nameAndType (p.internText name).2
        ((p.internText name).1.internText descriptor).2) := intern_eq_constant? hsize
  unfold nameAndType?
  rw [hpair]
  dsimp only
  rw [hgrows'.text?_eq hname, hgrows.text?_eq hdescriptor]
  rfl

/-- The index of an interned method is that of an entry of the kind asked for. -/
theorem internMethod_constant? {owner name descriptor : String} {interface : Bool}
    (hsize : (p.internMethod owner name descriptor interface).1.entries.size ≤ 65534) :
    (p.internMethod owner name descriptor interface).1.constant?
      (p.internMethod owner name descriptor interface).2 = some (if interface
        then .interfaceMethodRef (p.internClass owner).2
          ((p.internClass owner).1.internNameAndType name descriptor).2
        else .methodRef (p.internClass owner).2
          ((p.internClass owner).1.internNameAndType name descriptor).2) :=
  intern_eq_constant? hsize

/-- The index of an interned method names this method. -/
theorem internMethod_member? {owner name descriptor : String} {interface : Bool}
    (hsize : (p.internMethod owner name descriptor interface).1.entries.size ≤ 65534) :
    (p.internMethod owner name descriptor interface).1.member?
      (p.internMethod owner name descriptor interface).2 =
        some ⟨owner, name, descriptor, interface⟩ := by
  have hgrows : Grows (fun _ => True) ((p.internClass owner).1.internNameAndType name descriptor).1
      (p.internMethod owner name descriptor interface).1 := intern_grows _ _ _
  have hpairs : Grows (Constant.Interned fun _ => True) (p.internClass owner).1
      ((p.internClass owner).1.internNameAndType name descriptor).1 :=
    (internNameAndType_interns trivial trivial).grows (p.internClass owner).1
  have hgrows' := (hpairs.mono fun _ _ => trivial).trans hgrows
  have howner := internClass_className? (Nat.le_trans hgrows'.size_le hsize)
  have hpair := internNameAndType_nameAndType? (Nat.le_trans hgrows.size_le hsize)
  have hresolve : member?.resolve (p.internMethod owner name descriptor interface).1
      (p.internClass owner).2 ((p.internClass owner).1.internNameAndType name descriptor).2
        interface = some ⟨owner, name, descriptor, interface⟩ := by
    rw [member?.resolve, hgrows'.className?_eq howner, hgrows.nameAndType?_eq hpair]
    rfl
  unfold member?
  rw [internMethod_constant? hsize]
  cases interface <;> exact hresolve

end

end Pool

end Retrofit
