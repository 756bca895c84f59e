import Mathlib
import Retrofit.Proofs.Pool.Codec
import Retrofit.Proofs.Pool.Members

/-!
# Interned methods

A pool that is asked for a method gives an index that names exactly this method. Every entry keeps its
index and its content, at most six are appended, and a coherent pool stays so. The same question asked
again gets the same index and appends nothing. An index that led to entries of the pool goes on to mean
the same; one that led past the end may come to mean something.
-/

namespace Retrofit

/-- A method of either kind refers to its class and to its name and type. -/
theorem Constant.eq_of_mem_references_method {interface : Bool} {owner nt k : UInt16}
    (hk : k ∈ (if interface then Constant.interfaceMethodRef owner nt
      else .methodRef owner nt).references) : k = owner ∨ k = nt := by
  cases interface <;> simpa [Constant.references] using hk

namespace Pool

/-! ### References within the pool -/

/-- No entry refers to an index past the end. -/
def Closed (p : Pool) : Prop := ∀ c ∈ p.entries, ∀ k ∈ c.references, k.toNat ≤ p.entries.size

section

variable {p : Pool}

/-- The answer is the index of an entry that the pool has then, whether or not it was added. -/
theorem toNat_intern_le (p : Pool) (test : Constant → Bool) (c : Constant) :
    (p.intern test c).2.toNat ≤ (p.intern test c).1.entries.size := by
  unfold intern
  split
  · rename_i i hi
    obtain ⟨k, hk, rfl⟩ := Option.map_eq_some_iff.mp hi
    obtain ⟨hlt, -⟩ := Array.findIdx?_eq_some_iff_getElem.mp hk
    exact Nat.le_trans (Nat.mod_le _ _) hlt
  · rw [push]
    exact Nat.mod_le _ _

theorem Closed.intern (hp : p.Closed) {c : Constant} (test : Constant → Bool)
    (hc : ∀ k ∈ c.references, k.toNat ≤ p.entries.size) : (p.intern test c).1.Closed := by
  unfold Pool.intern
  split
  · exact hp
  · intro d hd k hk
    have hsize : (p.push c).1.entries.size = p.entries.size + 1 := Array.size_push c
    rw [hsize]
    obtain hold | rfl := Array.mem_push.mp hd
    · exact Nat.le_succ_of_le (hp d hold k hk)
    · exact Nat.le_succ_of_le (hc k hk)

theorem Closed.internText (hp : p.Closed) (text : String) : (p.internText text).1.Closed :=
  hp.intern _ (by simp [Constant.references])

theorem Closed.internClass (hp : p.Closed) (name : String) : (p.internClass name).1.Closed := by
  refine (hp.internText name).intern _ fun k hk => ?_
  rw [List.mem_singleton.mp hk]
  exact toNat_intern_le _ _ _

theorem Closed.internNameAndType (hp : p.Closed) (name descriptor : String) :
    (p.internNameAndType name descriptor).1.Closed := by
  refine ((hp.internText name).internText descriptor).intern _ fun k hk => ?_
  have hname : (p.internText name).2.toNat ≤ (p.internText name).1.entries.size :=
    toNat_intern_le _ _ _
  have hgrows := ((p.internText name).1.internText_grows descriptor).size_le
  simp only [Constant.references, List.mem_cons, List.not_mem_nil, or_false] at hk
  rcases hk with rfl | rfl
  · exact Nat.le_trans hname hgrows
  · exact toNat_intern_le _ _ _

theorem Closed.internMethod (hp : p.Closed) (owner name descriptor : String) (interface : Bool) :
    (p.internMethod owner name descriptor interface).1.Closed := by
  refine ((hp.internClass owner).internNameAndType name descriptor).intern _ fun k hk => ?_
  have howner : (p.internClass owner).2.toNat ≤ (p.internClass owner).1.entries.size :=
    toNat_intern_le _ _ _
  have hpair : Interns (Constant.Interned fun _ => True) 3 fun p =>
      p.internNameAndType name descriptor := internNameAndType_interns trivial trivial
  have hgrows := (hpair.grows (p.internClass owner).1).size_le
  rcases Constant.eq_of_mem_references_method hk with rfl | rfl
  · exact Nat.le_trans howner hgrows
  · exact toNat_intern_le _ _ _

end

/-! ### Coherent pools -/

end Pool

theorem Constant.Interned.narrow {T : List UInt8 → Prop} {c : Constant} (h : Interned T c) :
    c.isWide = false ∧ c ≠ .unusable := by
  cases c with
  | utf8 | classInfo | nameAndType | methodRef | interfaceMethodRef => exact ⟨rfl, by simp⟩
  | _ => cases h

theorem WideFilled.append {cs ds : List Constant} (h : WideFilled cs)
    (hds : ∀ d ∈ ds, d.isWide = false) : WideFilled (cs ++ ds) := by
  intro k c hc hwide
  by_cases hk : k < cs.length
  · rw [List.getElem?_append_left hk] at hc
    have hnext := h k c hc hwide
    rw [List.getElem?_append_left (List.getElem?_eq_some_iff.mp hnext).1, hnext]
  · rw [List.getElem?_append_right (Nat.le_of_not_lt hk)] at hc
    rw [hds c (List.mem_of_getElem? hc)] at hwide
    cases hwide

theorem NoEmptySlot.append {cs ds : List Constant} (h : NoEmptySlot cs)
    (hds : ∀ d ∈ ds, d ≠ .unusable) : NoEmptySlot (cs ++ ds) := by
  intro k hk
  by_cases hlt : k < cs.length
  · rw [List.getElem?_append_left hlt] at hk
    obtain ⟨j, c, rfl, hc, hwide⟩ := h k hk
    exact ⟨j, c, rfl, by rw [List.getElem?_append_left (by omega), hc], hwide⟩
  · rw [List.getElem?_append_right (Nat.le_of_not_lt hlt)] at hk
    exact absurd rfl (hds _ (List.mem_of_getElem? hk))

namespace Pool

/-- Exactly the slots behind longs and doubles have no constant. -/
structure Coherent (p : Pool) : Prop where
  filled : WideFilled p.entries.toList
  noEmptySlot : NoEmptySlot p.entries.toList

section

variable {T : List UInt8 → Prop} {p q : Pool} (h : p.Grows (Constant.Interned T) q)

include h

theorem Grows.coherent (hp : p.Coherent) : q.Coherent := by
  obtain ⟨cs, hq, hcs⟩ := h
  constructor <;> rw [hq, Array.toList_append]
  · exact hp.filled.append fun c hc => (hcs c hc).narrow.1
  · exact hp.noEmptySlot.append fun c hc => (hcs c hc).narrow.2

/-- All texts fit their lengths if the old and the new ones do. -/
theorem Grows.fits (hT : ∀ bs, T bs → bs.length < 65536) (hp : ∀ c ∈ p.entries, c.Fits) :
    ∀ c ∈ q.entries, c.Fits := by
  obtain ⟨cs, hq, hcs⟩ := h
  intro c hc
  rw [hq] at hc
  obtain hc | hc := Array.mem_append.mp hc
  · exact hp c hc
  · have hnew := hcs c (List.mem_toArray.mp hc)
    cases c with
    | utf8 bs => exact hT bs hnew
    | _ => trivial

end

/-! ### Asking for a method -/

/-- The index has the same constant in both pools, and names the same things. -/
structure SameAt (p q : Pool) (i : UInt16) : Prop where
  constant : q.constant? i = p.constant? i
  text : q.text? i = p.text? i
  className : q.className? i = p.className? i
  nameAndType : q.nameAndType? i = p.nameAndType? i
  member : q.member? i = p.member? i

theorem Grows.sameAt {P : Constant → Prop} {p q : Pool} (h : Grows P p q) {i : UInt16}
    (hi : p.Enclosed i) : p.SameAt q i :=
  ⟨h.constant?_of_enclosed hi, h.text?_of_enclosed hi, h.className?_of_enclosed hi,
    h.nameAndType?_of_enclosed hi, h.member?_of_enclosed hi⟩

/-- The pool `p` was asked for the method `m`: the answer is the index `i`, and `q` is the pool
afterwards. -/
structure Enters (p : Pool) (m : MemberRef) (q : Pool) (i : UInt16) : Prop where
  names : q.member? i = some m
  /-- A field or a method of the other kind is not taken for it. -/
  kind : ∃ owner nt, q.constant? i = some
    (if m.interface then .interfaceMethodRef owner nt else .methodRef owner nt)
  appended : ∃ cs : List Constant, cs.length ≤ 6 ∧ q.entries = p.entries ++ cs.toArray
  kept : ∀ j, j.toNat ≤ p.entries.size →
    q.constant? j = p.constant? j ∧ q.text? j = p.text? j
  /-- What an index named, it goes on to name. -/
  named : ∀ j, (∀ x, p.className? j = some x → q.className? j = some x) ∧
    (∀ x, p.nameAndType? j = some x → q.nameAndType? j = some x) ∧
    ∀ x, p.member? j = some x → q.member? j = some x
  /-- It only comes to name something if it led past the end. -/
  meant : ∀ j, p.Enclosed j → p.SameAt q j
  coherent : q.Coherent
  texts : (∀ c ∈ p.entries, c.Fits) → ∀ c ∈ q.entries, c.Fits
  closed : p.Closed → q.Closed ∧ ∀ j, j.toNat ≤ p.entries.size → p.SameAt q j
  stated : q = p ∨ q.statedSize.toNat = q.entries.size + 1
  again : q.internMethod m.owner m.name m.descriptor m.interface = (q, i)

/-- A coherent pool with room for six entries can be asked for any method whose texts can be
written. -/
theorem internMethod_enters {p : Pool} (hp : p.Coherent) (hsize : p.entries.size ≤ 65528)
    (m : MemberRef) (howner : m.owner.utf8ByteSize ≤ 65535) (hname : m.name.utf8ByteSize ≤ 65535)
    (hdescriptor : m.descriptor.utf8ByteSize ≤ 65535) :
    p.Enters m (p.internMethod m.owner m.name m.descriptor m.interface).1
      (p.internMethod m.owner m.name m.descriptor m.interface).2 := by
  have hfits (t : String) (ht : t.utf8ByteSize ≤ 65535) : (bytesOfText t).length < 65536 := by
    rw [length_bytesOfText]
    omega
  have hinterns := internMethod_interns (T := fun bs => bs.length < 65536) (hfits _ howner)
    (hfits _ hname) (hfits _ hdescriptor) m.interface
  have hgrows := hinterns.grows p
  have hsix := hinterns.size_le p
  have hnamed : (p.internMethod m.owner m.name m.descriptor m.interface).1.entries.size ≤ 65534 := by
    omega
  constructor
  case names => exact internMethod_member? hnamed
  case kind => exact ⟨_, _, internMethod_constant? hnamed⟩
  case appended =>
    obtain ⟨cs, hcs, -⟩ := hgrows
    have hadded : (p.internMethod m.owner m.name m.descriptor m.interface).1.entries.size =
        p.entries.size + cs.length := by simp [hcs]
    exact ⟨cs, by omega, hcs⟩
  case kept => exact fun j hj => ⟨hgrows.constant?_of_le hj, hgrows.text?_of_le hj⟩
  case named =>
    exact fun j => ⟨fun _ => hgrows.className?_eq, fun _ => hgrows.nameAndType?_eq,
      fun _ => hgrows.member?_eq⟩
  case meant => exact fun j => hgrows.sameAt
  case coherent => exact hgrows.coherent hp
  case texts => exact hgrows.fits fun _ h => h
  case closed =>
    exact fun h => ⟨h.internMethod m.owner m.name m.descriptor m.interface,
      fun j hj => hgrows.sameAt (enclosed_of_references h hj)⟩
  case stated => exact (p.internMethod_restated _ _ _ _).toNat_eq hnamed
  case again => exact hinterns.again p _ (.refl _ _)

/-- A pool that has the text of a class twice and the class under the later one, a long, bytes that are
no text, and a method of the class as one of an interface. -/
def knotted : Pool where
  statedSize := 11
  entries := #[.utf8 (bytesOfText "List"), .utf8 (bytesOfText "List"), .classInfo 2, .long 0,
    .unusable, .utf8 [0xc0, 0x80], .utf8 (bytesOfText "of"), .utf8 (bytesOfText "()V"),
    .nameAndType 7 8, .interfaceMethodRef 3 9]

/-- The class is entered again, under the first of its texts, and with it the method. -/
theorem internMethod_enters_knotted :
    knotted.Coherent ∧ (knotted.internMethod "List" "of" "()V" false).2 = 12 ∧
      knotted.Enters ⟨"List", "of", "()V", false⟩ (knotted.internMethod "List" "of" "()V" false).1
        (knotted.internMethod "List" "of" "()V" false).2 := by
  have hslots : Slots knotted.entries.toList := by
    repeat
      first
        | exact .nil
        | refine .wide rfl ?_
        | refine .narrow rfl (by simp) trivial ?_
        | refine .narrow rfl (by simp) (by show _ < _; decide) ?_
  obtain ⟨hfilled, hempty, -⟩ := slots_iff.mp hslots
  exact ⟨⟨hfilled, hempty⟩, by cbv, internMethod_enters ⟨hfilled, hempty⟩ (by decide) _ (by decide)
    (by decide) (by decide)⟩

/-- A class whose name is to stand in the entry behind it. -/
def nameless : Pool where
  statedSize := 2
  entries := #[.classInfo 2]

/-- An entry that names nothing, as it refers past the end, gets a name when a text is appended there:
the class asked for is then found in it. -/
theorem internMethod_names_nameless :
    nameless.Coherent ∧ nameless.entries.size ≤ 65528 ∧
      (∀ text ∈ ["A", "b", "()V"], text.utf8ByteSize ≤ 65535) ∧
      (1 : UInt16).toNat ≤ nameless.entries.size ∧ nameless.className? 1 = none ∧
      (nameless.internMethod "A" "b" "()V" false).1.className? 1 = some "A" := by
  have hslots : Slots nameless.entries.toList := .narrow rfl (by simp) trivial .nil
  obtain ⟨hfilled, hempty, -⟩ := slots_iff.mp hslots
  refine ⟨⟨hfilled, hempty⟩, by decide, by decide, by decide, by cbv, ?_⟩
  have hclass : (nameless.internMethod "A" "b" "()V" false).1.constant? 1 = some (.classInfo 2) := by
    cbv
  have htext : (nameless.internMethod "A" "b" "()V" false).1.constant? 2 =
      some (.utf8 (bytesOfText "A")) := by
    cbv
  rw [className?, hclass]
  dsimp only
  rw [text?, htext]
  exact textOfBytes?_bytesOfText "A"

end Pool

end Retrofit
