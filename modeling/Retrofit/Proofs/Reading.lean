import Retrofit.Proofs.Words

/-!
# What readers accept

A format is described from both sides. `Takes p bs a` says that `p` reads `a` from the bytes `bs`,
whatever follows them; `Gives p R` says that whatever `p` reads is related by `R` to the bytes that
it took. Both are put together piece by piece, the way a reader is.
-/

namespace Retrofit.Reader

variable {α β : Type}

/-- `p` takes exactly the bytes `bs` off the front of any input and reads `a` from them. -/
def Takes (p : Reader α) (bs : List UInt8) (a : α) : Prop :=
  ∀ offset rest, p ⟨offset, bs ++ rest⟩ = .ok (a, ⟨offset + bs.length, rest⟩)

/-- Whatever `p` reads, it takes bytes off the front that are related by `R` to the value. -/
def Gives (p : Reader α) (R : List UInt8 → α → Prop) : Prop :=
  ∀ s a s', p s = .ok (a, s') →
    ∃ bs, s.rest = bs ++ s'.rest ∧ s'.offset = s.offset + bs.length ∧ R bs a

/-- A reader that takes back what `enc` writes, and nothing but values with the property `P`. -/
abbrev GivesBack (p : Reader α) (enc : α → List UInt8) (P : α → Prop) : Prop :=
  Gives p fun bs a => bs = enc a ∧ P a

/-! ### Taking -/

namespace Takes

theorem pure (a : α) : Takes (Pure.pure a) [] a := fun _ _ => rfl

theorem bind {p : Reader α} {f : α → Reader β} {bs cs : List UInt8} {a : α} {b : β}
    (hp : Takes p bs a) (hf : Takes (f a) cs b) : Takes (p >>= f) (bs ++ cs) b := by
  intro offset rest
  rw [bind_apply, List.append_assoc, hp]
  have h := hf (offset + bs.length) rest
  rwa [Nat.add_assoc, ← List.length_append] at h

theorem map {p : Reader α} {bs : List UInt8} {a : α} (f : α → β) (hp : Takes p bs a) :
    Takes (f <$> p) bs (f a) := by
  have h := hp.bind (f := fun a => Pure.pure (f a)) (pure (f a))
  rwa [List.append_nil] at h

theorem blame {p : Reader α} {bs : List UInt8} {a : α} (cause : Nat → ReadError)
    (hp : Takes p bs a) : Takes (Reader.blame cause p) bs a := by
  intro offset rest
  rw [Reader.blame, hp]

/-- What is taken from the start of a byte list is the result of reading that list. -/
theorem run {p : Reader α} {bs : List UInt8} {a : α} (hp : Takes p bs a) : p.run bs = .ok a := by
  have h := hp 0 []
  rw [List.append_nil] at h
  rw [Reader.run, h]

theorem collect {p : Reader α} {enc : α → List UInt8} {xs : List α}
    (hp : ∀ x ∈ xs, Takes p (enc x) x) (acc : List α) :
    Takes (Reader.collect p xs.length acc) (xs.flatMap enc) (acc.reverse ++ xs) := by
  induction xs generalizing acc with
  | nil =>
      intro offset rest
      simp [Reader.collect]
  | cons x xs ih =>
      intro offset rest
      have hx := hp x List.mem_cons_self
      have h := ih (fun y hy => hp y (List.mem_cons_of_mem x hy)) (x :: acc)
        (offset + (enc x).length) rest
      rw [List.length_cons, List.flatMap_cons, List.append_assoc, Reader.collect, hx]
      simpa [Nat.add_assoc] using h

/-- Items written one after the other are taken back together. -/
theorem many {p : Reader α} {enc : α → List UInt8} {xs : List α}
    (hp : ∀ x ∈ xs, Takes p (enc x) x) : Takes (Reader.many xs.length p) (xs.flatMap enc) xs :=
  collect hp []

end Takes

theorem takes_u8 (b : UInt8) : Takes u8 [b] b := fun _ _ => rfl

theorem takes_bytes (bs : List UInt8) : Takes (bytes bs.length) bs bs := by
  have h : Takes (bytes bs.length) (bs.flatMap fun b => [b]) bs := Takes.many fun b _ => takes_u8 b
  rwa [List.flatMap_singleton'] at h

theorem takes_nat {width : Nat} {bs : List UInt8} (h : bs.length = width) :
    Takes (nat width) bs (Bytes.toNat bs) := by
  subst h
  have h := (takes_bytes bs).bind (f := fun bs => pure (Bytes.toNat bs)) (Takes.pure _)
  rwa [List.append_nil] at h

theorem takes_u16 (x : UInt16) : Takes u16 (Bytes.ofUInt16 x) x := by
  have h := (takes_nat (Bytes.length_ofUInt16 x)).map UInt16.ofNat
  rwa [Bytes.toNat_ofUInt16, UInt16.ofNat_toNat] at h

theorem takes_u32 (x : UInt32) : Takes u32 (Bytes.ofUInt32 x) x := by
  have h := (takes_nat (Bytes.length_ofUInt32 x)).map UInt32.ofNat
  rwa [Bytes.toNat_ofUInt32, UInt32.ofNat_toNat] at h

theorem takes_u64 (x : UInt64) : Takes u64 (Bytes.ofUInt64 x) x := by
  have h := (takes_nat (Bytes.length_ofUInt64 x)).map UInt64.ofNat
  rwa [Bytes.toNat_ofUInt64, UInt64.ofNat_toNat] at h

theorem takes_i8 (x : Int8) : Takes i8 [x.toUInt8] x := (takes_u8 x.toUInt8).map UInt8.toInt8

theorem takes_i16 (x : Int16) : Takes i16 (Bytes.ofInt16 x) x :=
  (takes_u16 x.toUInt16).map UInt16.toInt16

theorem takes_i32 (x : Int32) : Takes i32 (Bytes.ofInt32 x) x :=
  (takes_u32 x.toUInt32).map UInt32.toInt32

theorem takes_i64 (x : Int64) : Takes i64 (Bytes.ofInt64 x) x :=
  (takes_u64 x.toUInt64).map UInt64.toInt64

/-! ### Giving -/

namespace Gives

theorem mono {p : Reader α} {R S : List UInt8 → α → Prop} (hp : Gives p R)
    (h : ∀ bs a, R bs a → S bs a) : Gives p S := by
  intro s a s' hs
  obtain ⟨bs, hrest, hoffset, hR⟩ := hp s a s' hs
  exact ⟨bs, hrest, hoffset, h bs a hR⟩

theorem pure (a : α) : Gives (Pure.pure a) fun bs b => bs = [] ∧ b = a := by
  intro s b s' h
  cases h
  exact ⟨[], rfl, rfl, rfl, rfl⟩

theorem fail (e : ReadError) (R : List UInt8 → α → Prop) : Gives (Reader.fail e) R := by
  intro s a s' h
  cases h

theorem bind {p : Reader α} {f : α → Reader β} {R : List UInt8 → α → Prop}
    {S : α → List UInt8 → β → Prop} (hp : Gives p R) (hf : ∀ a, Gives (f a) (S a)) :
    Gives (p >>= f) fun bs b => ∃ cs a ds, bs = cs ++ ds ∧ R cs a ∧ S a ds b := by
  intro s b s' h
  rw [bind_apply] at h
  split at h
  · rename_i a t hs
    obtain ⟨cs, hrest, hoffset, hR⟩ := hp s a t hs
    obtain ⟨ds, hrest', hoffset', hS⟩ := hf a t b s' h
    refine ⟨cs ++ ds, ?_, ?_, cs, a, ds, rfl, hR, hS⟩
    · rw [hrest, hrest', List.append_assoc]
    · rw [hoffset', hoffset, List.length_append, Nat.add_assoc]
  · cases h

theorem map {p : Reader α} {R : List UInt8 → α → Prop} (f : α → β) (hp : Gives p R) :
    Gives (f <$> p) fun bs b => ∃ a, b = f a ∧ R bs a := by
  refine (hp.bind (f := fun a => Pure.pure (f a)) fun a => pure (f a)).mono ?_
  rintro bs b ⟨cs, a, ds, rfl, hR, rfl, rfl⟩
  exact ⟨a, rfl, by rwa [List.append_nil]⟩

theorem blame {p : Reader α} {R : List UInt8 → α → Prop} (cause : Nat → ReadError)
    (hp : Gives p R) : Gives (Reader.blame cause p) R := by
  intro s a s' h
  rw [Reader.blame] at h
  split at h
  · rename_i r hs
    cases h
    exact hp s a s' hs
  · cases h

/-- What reading a byte list gives comes from bytes at its front. -/
theorem run {p : Reader α} {R : List UInt8 → α → Prop} (hp : Gives p R) {bytes : List UInt8}
    {a : α} (h : p.run bytes = .ok a) : ∃ bs rest, bytes = bs ++ rest ∧ R bs a := by
  rw [Reader.run] at h
  split at h
  · rename_i b s' hs
    cases h
    obtain ⟨bs, hrest, -, hR⟩ := hp _ _ _ hs
    exact ⟨bs, s'.rest, hrest, hR⟩
  · cases h

theorem collect {p : Reader α} {enc : α → List UInt8} {P : α → Prop} (hp : GivesBack p enc P)
    (n : Nat) (acc : List α) :
    Gives (Reader.collect p n acc) fun bs xs =>
      ∃ ys, xs = acc.reverse ++ ys ∧ bs = ys.flatMap enc ∧ ys.length = n ∧ ∀ y ∈ ys, P y := by
  induction n generalizing acc with
  | zero =>
      intro s xs s' h
      cases h
      exact ⟨[], rfl, rfl, [], by simp⟩
  | succ n ih =>
      intro s xs s' h
      rw [Reader.collect] at h
      split at h
      · cases h
      · rename_i a t hs
        obtain ⟨_, hrest, hoffset, rfl, ha⟩ := hp s a t hs
        obtain ⟨_, hrest', hoffset', ys, rfl, rfl, rfl, hys⟩ := ih (a :: acc) t xs s' h
        refine ⟨enc a ++ ys.flatMap enc, ?_, ?_, a :: ys, by simp, by simp, rfl, ?_⟩
        · rw [hrest, hrest', List.append_assoc]
        · rw [hoffset', hoffset, List.length_append, Nat.add_assoc]
        · simpa using ⟨ha, hys⟩

theorem many {p : Reader α} {enc : α → List UInt8} {P : α → Prop} (hp : GivesBack p enc P)
    (n : Nat) :
    Gives (Reader.many n p) fun bs xs =>
      bs = xs.flatMap enc ∧ xs.length = n ∧ ∀ x ∈ xs, P x := by
  refine (collect hp n []).mono ?_
  rintro bs xs ⟨ys, rfl, h⟩
  exact h

end Gives

theorem givesBack_u8 : GivesBack u8 (fun b => [b]) fun _ => True := by
  intro s a s' h
  unfold u8 at h
  split at h
  · cases h
  · rename_i b rest heq
    cases h
    exact ⟨_, heq, rfl, rfl, trivial⟩

theorem gives_bytes (n : Nat) : Gives (bytes n) fun bs a => bs = a ∧ a.length = n := by
  refine (givesBack_u8.many n).mono ?_
  rintro bs a ⟨rfl, h, -⟩
  exact ⟨List.flatMap_singleton' a, h⟩

theorem gives_nat (width : Nat) :
    Gives (nat width) fun bs n => bs.length = width ∧ n = Bytes.toNat bs := by
  refine ((gives_bytes width).bind fun bs => Gives.pure (Bytes.toNat bs)).mono ?_
  rintro bs n ⟨cs, _, ds, rfl, ⟨rfl, h⟩, rfl, rfl⟩
  simpa using h

theorem givesBack_u16 : GivesBack u16 Bytes.ofUInt16 fun _ => True := by
  refine ((gives_nat 2).map UInt16.ofNat).mono ?_
  rintro bs _ ⟨_, rfl, h, rfl⟩
  exact ⟨(Bytes.ofUInt16_toNat h).symm, trivial⟩

theorem givesBack_u32 : GivesBack u32 Bytes.ofUInt32 fun _ => True := by
  refine ((gives_nat 4).map UInt32.ofNat).mono ?_
  rintro bs _ ⟨_, rfl, h, rfl⟩
  exact ⟨(Bytes.ofUInt32_toNat h).symm, trivial⟩

theorem givesBack_u64 : GivesBack u64 Bytes.ofUInt64 fun _ => True := by
  refine ((gives_nat 8).map UInt64.ofNat).mono ?_
  rintro bs _ ⟨_, rfl, h, rfl⟩
  exact ⟨(Bytes.ofUInt64_toNat h).symm, trivial⟩

theorem givesBack_i8 : GivesBack i8 (fun x => [x.toUInt8]) fun _ => True := by
  refine (givesBack_u8.map UInt8.toInt8).mono ?_
  rintro _ _ ⟨b, rfl, rfl, -⟩
  exact ⟨rfl, trivial⟩

theorem givesBack_i16 : GivesBack i16 Bytes.ofInt16 fun _ => True := by
  refine (givesBack_u16.map UInt16.toInt16).mono ?_
  rintro _ _ ⟨x, rfl, rfl, -⟩
  exact ⟨rfl, trivial⟩

theorem givesBack_i32 : GivesBack i32 Bytes.ofInt32 fun _ => True := by
  refine (givesBack_u32.map UInt32.toInt32).mono ?_
  rintro _ _ ⟨x, rfl, rfl, -⟩
  exact ⟨rfl, trivial⟩

theorem givesBack_i64 : GivesBack i64 Bytes.ofInt64 fun _ => True := by
  refine (givesBack_u64.map UInt64.toInt64).mono ?_
  rintro _ _ ⟨x, rfl, rfl, -⟩
  exact ⟨rfl, trivial⟩

end Retrofit.Reader
