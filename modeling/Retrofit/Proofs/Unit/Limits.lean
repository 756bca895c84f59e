import Retrofit.Proofs.Recipe.Profile
import Retrofit.Proofs.Unit.AnyOrder

/-!
# Limits of patched methods

The limits of a method after any patches follow from its loaded limits and the replacements alone.
The slots for arguments are shared by all replacements of a method, so the local limit grows by the
largest need among them. The stack limit is raised anew by each patch, above what the patches before
it have raised it to: every replacement has the room it needs, but the limit grows by the sum of what
they need, not by the largest need.
-/

namespace Retrofit

namespace Replacement

/-- The highest depth that the steps reach from the call's arguments. -/
def peak (r : Replacement) : Nat :=
  match r.stackProfile with
  | .ok profile => profile.peak.toNat
  | .error _ => 0

/-- What the call that is replaced has of the operand stack before or after it, at least. -/
def consumed (r : Replacement) : Nat := max r.argCount.toNat 1

/-- The operand stack that a method with the given limit needs for the replacement. -/
def stackNeed (limit : Nat) (r : Replacement) : Nat := limit - r.consumed + r.peak

/-- The limit that a patch with the replacement leaves. -/
def raiseStack (r : Replacement) (limit : Nat) : Nat := max (r.stackNeed limit) limit

/-- How much the replacement needs above what the call had. -/
def growth (r : Replacement) : Nat := r.peak - r.consumed

/-- The replacements for calls in the method `i`. -/
def ofMethod (i : Nat) (ps : List (CallSite × Replacement)) : List Replacement :=
  (ps.filter fun p => p.1.methodIndex == i).map Prod.snd

/-- The slots that the largest of the replacements needs. -/
def largestArgSlots (rs : List Replacement) : Nat := rs.foldr (fun r m => max r.argSlots.toNat m) 0

/-- The replacements that are chosen for sites, each with its site. -/
def chosenFor (maxFixedArity : Nat) (sites : List CallSite) : List (CallSite × Replacement) :=
  sites.filterMap fun s => (s.replacement maxFixedArity).toOption.map fun r => (s, r)

theorem Chosen.peak_eq {r : Replacement} {n : Nat} (h : Chosen r n) : r.peak = n := by
  obtain ⟨top, hprofile, hpeak⟩ := h.stackProfile_eq
  unfold peak
  rw [hprofile]
  exact hpeak

theorem mem_ofMethod {i : Nat} {p : CallSite × Replacement} {ps : List (CallSite × Replacement)}
    (hp : p ∈ ps) (hi : p.1.methodIndex = i) : p.2 ∈ ofMethod i ps :=
  List.mem_map.mpr ⟨p, List.mem_filter.mpr ⟨hp, by simpa using hi⟩, rfl⟩

theorem argSlots_le_largest {rs : List Replacement} {r : Replacement} (hr : r ∈ rs) :
    r.argSlots.toNat ≤ largestArgSlots rs := by
  induction rs with
  | nil => cases hr
  | cons r' rs ih =>
      rcases List.mem_cons.mp hr with rfl | hr
      · exact Nat.le_max_left _ _
      · exact Nat.le_trans (ih hr) (Nat.le_max_right _ _)

theorem ofMethod_cons (i : Nat) (p : CallSite × Replacement) (ps : List (CallSite × Replacement)) :
    ofMethod i (p :: ps) = if p.1.methodIndex = i then p.2 :: ofMethod i ps else ofMethod i ps := by
  unfold ofMethod
  by_cases h : p.1.methodIndex = i
  · rw [List.filter_cons_of_pos (by simpa using h), if_pos h, List.map_cons]
  · rw [List.filter_cons_of_neg (by simpa using h), if_neg h]

/-! ### Raising a limit again and again -/

section

variable {limit : Nat} {rs : List Replacement}

theorem le_foldr_raiseStack (limit : Nat) (rs : List Replacement) :
    limit ≤ rs.foldr raiseStack limit := by
  induction rs with
  | nil => exact Nat.le_refl _
  | cons r rs ih => exact Nat.le_trans ih (Nat.le_max_right _ _)

/-- Every replacement has the room that it needs. -/
theorem stackNeed_le_foldr {r : Replacement} (hr : r ∈ rs) :
    r.stackNeed limit ≤ rs.foldr raiseStack limit := by
  induction rs with
  | nil => cases hr
  | cons r' rs ih =>
      rw [List.foldr_cons]
      rcases List.mem_cons.mp hr with rfl | hr
      · have hle := le_foldr_raiseStack limit rs
        have hneed : r.stackNeed limit ≤ r.stackNeed (rs.foldr raiseStack limit) := by
          unfold stackNeed
          omega
        exact Nat.le_trans hneed (Nat.le_max_left _ _)
      · exact Nat.le_trans (ih hr) (Nat.le_max_right _ _)

/-- The needs are added up if the loaded method has room for each of the calls. -/
theorem foldr_raiseStack_eq (hfit : ∀ r ∈ rs, r.consumed ≤ limit ∧ r.consumed ≤ r.peak) :
    rs.foldr raiseStack limit = limit + (rs.map growth).sum := by
  induction rs with
  | nil => rfl
  | cons r rs ih =>
      obtain ⟨hr, hrs⟩ := List.forall_mem_cons.mp hfit
      rw [List.foldr_cons, ih hrs, List.map_cons, List.sum_cons, raiseStack, stackNeed, growth]
      omega

theorem foldr_stackNeed_eq (hfit : ∀ r ∈ rs, r.consumed ≤ limit ∧ r.consumed ≤ r.peak) :
    (rs.map (stackNeed limit)).foldr max limit = limit + (rs.map growth).foldr max 0 := by
  induction rs with
  | nil => rfl
  | cons r rs ih =>
      obtain ⟨hr, hrs⟩ := List.forall_mem_cons.mp hfit
      rw [List.map_cons, List.foldr_cons, ih hrs, List.map_cons, List.foldr_cons, stackNeed, growth]
      omega

theorem foldr_stackNeed_le (limit : Nat) (rs : List Replacement) :
    (rs.map (stackNeed limit)).foldr max limit ≤ rs.foldr raiseStack limit := by
  have hbound {bound : Nat} (hle : limit ≤ bound) (xs : List Nat) (hxs : ∀ x ∈ xs, x ≤ bound) :
      xs.foldr max limit ≤ bound := by
    induction xs with
    | nil => exact hle
    | cons x xs ih =>
        obtain ⟨hx, hxs⟩ := List.forall_mem_cons.mp hxs
        exact Nat.max_le.mpr ⟨hx, ih hxs⟩
  refine hbound (le_foldr_raiseStack limit rs) _ fun x hx => ?_
  obtain ⟨r, hr, rfl⟩ := List.mem_map.mp hx
  exact stackNeed_le_foldr hr

/-- A sum is no more than its largest term exactly if at most one of its terms counts. -/
theorem sum_eq_foldr_max_iff (xs : List Nat) :
    xs.sum = xs.foldr max 0 ↔ xs.countP (0 < ·) ≤ 1 := by
  have hzero (xs : List Nat) : xs.sum = 0 ↔ xs.countP (0 < ·) = 0 := by
    simp [List.sum_eq_zero_iff]
  have hle (xs : List Nat) : xs.foldr max 0 ≤ xs.sum := by
    induction xs with
    | nil => exact Nat.le_refl _
    | cons x xs ih =>
        rw [List.foldr_cons, List.sum_cons]
        omega
  induction xs with
  | nil => simp
  | cons x xs ih =>
      have hxs := hzero xs
      have hmax := hle xs
      rw [List.sum_cons, List.foldr_cons, List.countP_cons]
      by_cases hx : 0 < x
      · rw [if_pos (by simpa using hx)]
        omega
      · obtain rfl : x = 0 := Nat.eq_zero_of_not_pos hx
        rw [if_neg (by decide), Nat.zero_add, Nat.zero_max, Nat.add_zero]
        exact ih

end

end Replacement

/-- The replacements for the calls in the method `i` of a class. -/
def Target.replacementsIn (t : Target) (u : ClassUnit) (maxFixedArity i : Nat) :
    List Replacement :=
  Replacement.ofMethod i (Replacement.chosenFor maxFixedArity (sites (t.scan u)))

/-- A replacement never needs less than its call had. -/
theorem Target.consumed_le_peak {t : Target} {u : ClassUnit} {maxFixedArity i : Nat} {r : Replacement}
    (hr : r ∈ t.replacementsIn u maxFixedArity i) : r.consumed ≤ r.peak := by
  obtain ⟨⟨s, r⟩, hmem, rfl⟩ := List.mem_map.mp hr
  obtain ⟨s', -, hs'⟩ := List.mem_filterMap.mp (List.mem_filter.mp hmem).1
  obtain ⟨r', hr', hpair⟩ := Option.map_eq_some_iff.mp hs'
  cases hpair
  cases hreplacement : s.replacement maxFixedArity with
  | error e =>
      rw [hreplacement] at hr'
      cases hr'
  | ok r'' =>
      rw [hreplacement] at hr'
      cases hr'
      obtain ⟨peak, hchosen⟩ := Replacement.chosen_of_replacement hreplacement
      rw [hchosen.peak_eq]
      exact hchosen.argCount_le

/-! ### Edited classes -/

namespace Change

/-- The site of a change and its replacement. -/
def patched (c : Change) : CallSite × Replacement := (c.site, c.replacement)

/-- The inserted instructions stay within the limits of the edited body `b'`. From any depth at which
the loaded body `b` can make the call, they go no higher than its stack limit and leave one slot in the
place of the arguments. They touch only local slots that the loaded body does not have. -/
structure StaysWithin (c : Change) (pool : Pool) (b b' : Body) : Prop where
  depths : ∀ d, c.replacement.argCount.toNat ≤ d → d ≤ b.maxStack.toNat →
    d - c.replacement.argCount.toNat + 1 ≤ b.maxStack.toNat →
    ∃ ds, Code.depths? pool c.lowered d = some ds ∧ (∀ x ∈ ds, x ≤ b'.maxStack.toNat) ∧
      ds.getLast? = some (d - c.replacement.argCount.toNat + 1)
  slots : ∀ i ∈ c.lowered, ∀ x ∈ i.localSlots, b.maxLocals.toNat ≤ x ∧ x < b'.maxLocals.toNat

end Change

/-- The body has the limits of the loaded body `b`, raised by the replacements. -/
structure Body.RaisedTo (b : Body) (rs : List Replacement) (b' : Body) : Prop where
  scratchBase_eq : b'.scratchBase = b.scratchBase
  maxStack_eq : b'.maxStack.toNat = rs.foldr Replacement.raiseStack b.maxStack.toNat
  maxLocals_eq : b'.maxLocals.toNat = b.maxLocals.toNat + Replacement.largestArgSlots rs

/-- One patch raises the limits by its replacement. -/
theorem Body.RaisedTo.patch {b b' b'' : Body} {rs : List Replacement} {r : Replacement}
    {position : Nat} {profile : StackProfile} {is : List Instruction} (h : b.RaisedTo rs b')
    (hscratch : b.scratchBase = b.maxLocals) (hprofile : r.stackProfile = .ok profile)
    (hpatch : b'.patch position r profile is = .ok b'') : b.RaisedTo (r :: rs) b'' := by
  obtain ⟨hstack, hlocals, rfl, -⟩ := patch_eq_ok hpatch
  have hpeak : r.peak = profile.peak.toNat := by
    unfold Replacement.peak
    rw [hprofile]
  refine ⟨h.scratchBase_eq, ?_, ?_⟩
  · show (max (UInt16.ofNat (b'.stackLimit r profile)) b'.maxStack).toNat = _
    rw [toNat_max, UInt16.toNat_ofNat_of_lt' (Nat.lt_succ_of_le hstack), List.foldr_cons,
      ← h.maxStack_eq, Replacement.raiseStack, Replacement.stackNeed, Replacement.consumed, hpeak,
      Body.stackLimit]
  · show (max (UInt16.ofNat (b'.localLimit r)) b'.maxLocals).toNat = _
    rw [toNat_max, UInt16.toNat_ofNat_of_lt' (Nat.lt_succ_of_le hlocals), h.maxLocals_eq,
      Body.localLimit, h.scratchBase_eq, hscratch, Replacement.largestArgSlots,
      Replacement.largestArgSlots, List.foldr_cons]
    omega

/-- A compiled change stays within limits that its own replacement has raised among others. -/
theorem Body.RaisedTo.staysWithin {u : ClassUnit} {q : Pool} {b b' : Body} {rs : List Replacement}
    (h : b.RaisedTo rs b') (hscratch : b.scratchBase = b.maxLocals) {c : Change} {maxFixedArity : Nat}
    (hc : c.Compiled u maxFixedArity q)
    (hb : u.methods[c.site.methodIndex]?.bind MethodUnit.body? = some b) (hr : c.replacement ∈ rs) :
    c.StaysWithin q b b' := by
  obtain ⟨peak, hchosen⟩ := Replacement.chosen_of_replacement hc.chosen
  obtain ⟨b₀, p, p', hb₀, hlower, hgrows⟩ := hc.lowers
  rw [hb, Option.some_inj] at hb₀
  subst hb₀
  constructor
  · intro d hd hle hafter
    obtain ⟨ds, hds, hbound, hlast⟩ := hchosen.depths?_eq hlower hgrows hd
    refine ⟨ds, hds, fun x hx => ?_, hlast⟩
    have hneed : c.replacement.stackNeed b.maxStack.toNat ≤
        rs.foldr Replacement.raiseStack b.maxStack.toNat := Replacement.stackNeed_le_foldr hr
    rw [← h.maxStack_eq, Replacement.stackNeed, Replacement.consumed, hchosen.peak_eq] at hneed
    have hx := hbound x hx
    omega
  · intro i hi x hx
    have hbound := hchosen.localSlots_bound hlower i hi x hx
    have hlargest := Replacement.argSlots_le_largest hr
    rw [hscratch] at hbound
    rw [h.maxLocals_eq]
    omega

namespace ClassUnit

/-- The class was got from `u` by patches, each at any site and with a replacement that was chosen for
it. The changes are the patches that succeeded, the last one first. -/
inductive Edited (u : ClassUnit) : List Change → ClassUnit → Prop
  | loaded : Edited u [] u
  | replaced {changes : List Change} {v w : ClassUnit} {s : CallSite} {maxFixedArity : Nat}
      {r : Replacement} {b : Body} {is : List Instruction} (h : Edited u changes v)
      (hr : s.replacement maxFixedArity = .ok r) (hpatches : v.Patches s r b is w) :
      Edited u (⟨s, r, is⟩ :: changes) w
  | refused {changes : List Change} {v w : ClassUnit} {s : CallSite} {r : Replacement}
      {e : PatchError} (h : Edited u changes v) (hpatch : v.patch s r = (w, .error e)) :
      Edited u changes w

section

variable {u v w : ClassUnit} {changes : List Change} {i : Nat} {m : MethodUnit} {b : Body}

/-- Any patch may come next. -/
theorem Edited.exists_next (h : Edited u changes v) {s : CallSite} {maxFixedArity : Nat}
    {r : Replacement} (hr : s.replacement maxFixedArity = .ok r) :
    ∃ changes', Edited u changes' (v.patch s r).1 := by
  rcases hpatch : v.patch s r with ⟨w, outcome⟩
  cases outcome with
  | error e => exact ⟨changes, h.refused hpatch⟩
  | ok done =>
      obtain ⟨b, is, hpatches⟩ := patches_of_patch hpatch
      exact ⟨_, h.replaced hr hpatches⟩

/-- Trying sites of a scan is a way to edit a class. -/
theorem Tried.edited {sites : List CallSite} {maxFixedArity : Nat}
    (h : Tried u sites maxFixedArity changes v) : Edited u changes v := by
  induction h with
  | loaded => exact .loaded
  | replaced _ _ hr hpatch hfound hlower ih =>
      exact ih.replaced hr (patches_of_lower hpatch hfound hlower)
  | refused _ _ _ hpatch ih => exact ih.refused hpatch

/-- An edited class is reached by patches that succeed, with patches in between that change no more
than the pool. -/
theorem Edited.steps (h : Edited u changes v) :
    Relation.ReflTransGen (fun v w => PatchStep v w ∨ ∃ pool, w = v.withPool pool) u v := by
  induction h with
  | loaded => exact .refl
  | replaced _ hr hpatches ih => exact ih.tail (Or.inl ⟨_, _, _, _, hr, hpatches.patch_eq⟩)
  | refused _ hpatch ih => exact ih.tail (Or.inr ⟨_, eq_withPool_of_patch hpatch⟩)

/-- The method `i` of an edited class has a body with limits that its replacements have raised. -/
theorem Edited.exists_raisedTo (h : Edited u changes v) (hm : u.methods[i]? = some m)
    (hb : m.body? = some b) (hscratch : b.scratchBase = b.maxLocals) :
    ∃ m' b', v.methods[i]? = some m' ∧ m'.body? = some b' ∧
      b.RaisedTo (Replacement.ofMethod i (changes.map Change.patched)) b' := by
  induction h with
  | loaded => exact ⟨m, b, hm, hb, rfl, rfl, rfl⟩
  | refused _ hpatch ih =>
      rw [eq_withPool_of_patch hpatch]
      exact ih
  | @replaced changes v w s _ r b₀ is _ _ hpatches ih =>
      obtain ⟨m', b', hm', hb', hraised⟩ := ih
      obtain ⟨profile, b'', hprofile, hpatch, hw⟩ := hpatches.installs
      have hmethods : w.methods = v.methods.modify s.methodIndex (·.withBody b'') := by
        rw [hw]
        rfl
      have hofMethod : Replacement.ofMethod i ((⟨s, r, is⟩ :: changes).map Change.patched) =
          if s.methodIndex = i then r :: Replacement.ofMethod i (changes.map Change.patched)
          else Replacement.ofMethod i (changes.map Change.patched) :=
        Replacement.ofMethod_cons i _ _
      rw [hmethods, List.getElem?_modify, hm', hofMethod]
      by_cases hi : s.methodIndex = i
      · subst hi
        obtain rfl := hpatches.body_eq hm' hb'
        obtain ⟨⟨k, b'⟩, hcode, rfl⟩ := Option.map_eq_some_iff.mp hb'
        rw [if_pos rfl]
        refine ⟨m'.withBody b'', b'', by simp, ?_, hraised.patch hscratch hprofile hpatch⟩
        rw [MethodUnit.body?, MethodUnit.withBody, hcode]
        rfl
      · rw [if_neg hi]
        exact ⟨m', b', by simp [hi], hb', hraised⟩

/-- The changes of a method were lowered for the slots that its loaded body leaves free. -/
theorem Edited.compiled (h : Edited u changes v) (hm : u.methods[i]? = some m)
    (hb : m.body? = some b) (hscratch : b.scratchBase = b.maxLocals) :
    ∀ c ∈ changes, c.site.methodIndex = i → ∃ maxFixedArity, c.Compiled u maxFixedArity v.pool := by
  induction h with
  | loaded => simp
  | @refused changes v w s r e _ hpatch ih =>
      have hgrows := v.grows_of_patch s r
      rw [hpatch] at hgrows
      intro c hc hi
      obtain ⟨maxFixedArity, hcompiled⟩ := ih c hc hi
      exact ⟨maxFixedArity, hcompiled.grow hgrows⟩
  | @replaced changes v w s maxFixedArity r b₀ is hedited hr hpatches ih =>
      have hgrows := v.grows_of_patch s r
      rw [hpatches.patch_eq] at hgrows
      intro c hc hi
      rcases List.mem_cons.mp hc with rfl | hc
      · subst hi
        obtain ⟨m', b', hm', hb', hraised⟩ := hedited.exists_raisedTo hm hb hscratch
        obtain rfl := hpatches.body_eq hm' hb'
        obtain ⟨pool, hlower, hpool⟩ := hpatches.lowers
        refine ⟨maxFixedArity, hr, b, v.pool, pool, ?_, ?_, ?_⟩
        · rw [hm]
          exact hb
        · rw [← hraised.scratchBase_eq]
          exact hlower
        · rw [hpool]
          exact .refl _ _
      · obtain ⟨maxFixedArity, hcompiled⟩ := ih c hc hi
        exact ⟨maxFixedArity, hcompiled.grow hgrows⟩

/-- The scratch slots of a loaded body start where its local slots end. -/
theorem Loads.scratchBase_eq {bytes : List UInt8} (h : Loads bytes u) (hm : u.methods[i]? = some m)
    (hb : m.body? = some b) : b.scratchBase = b.maxLocals := by
  obtain ⟨c, hdecode⟩ := h.exists_decode (List.mem_of_getElem? hm) hb
  obtain ⟨is, tables, -, -, rfl⟩ := Body.decode_eq_ok_iff.mp hdecode
  rfl

/-- However a loaded class was patched, each of its methods has as many local slots as it was loaded
with and the largest of its replacements needs besides, and all inserted instructions stay within the
limits. -/
theorem edited_staysWithin {bytes : List UInt8} (hload : ofBytes bytes = .ok u)
    (h : Edited u changes v) (hm : u.methods[i]? = some m) (hb : m.body? = some b) :
    ∃ m' b', v.methods[i]? = some m' ∧ m'.body? = some b' ∧
      b'.maxLocals.toNat = b.maxLocals.toNat +
        Replacement.largestArgSlots (Replacement.ofMethod i (changes.map Change.patched)) ∧
      ∀ c ∈ changes, c.site.methodIndex = i → c.StaysWithin v.pool b b' := by
  have hscratch := (loads_of_ofBytes hload).scratchBase_eq hm hb
  obtain ⟨m', b', hm', hb', hraised⟩ := h.exists_raisedTo hm hb hscratch
  refine ⟨m', b', hm', hb', hraised.maxLocals_eq, fun c hc hi => ?_⟩
  obtain ⟨maxFixedArity, hcompiled⟩ := h.compiled hm hb hscratch c hc hi
  have hmem := Replacement.mem_ofMethod (List.mem_map_of_mem (f := Change.patched) hc) hi
  subst hi
  refine hraised.staysWithin hscratch hcompiled ?_ hmem
  rw [hm]
  exact hb

end

/-! ### All calls of a class -/

section

variable {u v w : ClassUnit} {changes : List Change} {i : Nat} {m : MethodUnit} {b : Body}
  {maxFixedArity : Nat} {records : List Substitution} {events : List Event}

/-- Replacing the calls at sites one by one is trying each of them, with a change for each of the
sites that has a replacement. -/
theorem Tried.substituteSites {sites : List CallSite} (h : Tried u sites maxFixedArity changes v)
    {done : List Substitution} {told : List Event} {todo : List CallSite} (htodo : todo ⊆ sites)
    (hrun : v.substituteSites maxFixedArity done told todo = ⟨w, .ok records, events⟩) :
    ∃ new, Tried u sites maxFixedArity (new ++ changes) w ∧
      new.map Change.patched = Replacement.chosenFor maxFixedArity todo.reverse := by
  induction todo generalizing v changes done told with
  | nil =>
      cases hrun
      exact ⟨[], h, rfl⟩
  | cons s todo ih =>
      obtain ⟨hs, htodo⟩ := List.cons_subset.mp htodo
      rw [ClassUnit.substituteSites] at hrun
      rw [List.reverse_cons, Replacement.chosenFor, List.filterMap_append]
      split at hrun
      · rename_i e he
        obtain ⟨new, htried, hnew⟩ := ih h htodo hrun
        refine ⟨new, htried, ?_⟩
        rw [hnew, List.filterMap_cons_none (by rw [he]; rfl), List.filterMap_nil, List.append_nil]
        rfl
      · rename_i r hr
        dsimp only at hrun
        split at hrun
        · cases hrun
        · rename_i v' hpatch
          obtain ⟨b, is, hfound, ⟨pool, hlower, rfl⟩, -⟩ := patches_of_patch hpatch
          obtain ⟨new, htried, hnew⟩ := ih (h.replaced hs hr hpatch hfound hlower) htodo hrun
          refine ⟨new ++ [⟨s, r, is⟩], ?_, ?_⟩
          · rw [List.append_assoc, List.singleton_append]
            exact htried
          · rw [List.map_append, hnew, List.filterMap_cons_some (by rw [hr]; rfl),
              List.filterMap_nil]
            rfl

theorem edited_of_substitute {t : Target}
    (h : u.substitute t maxFixedArity = ⟨v, .ok records, events⟩) :
    ∃ changes, Edited u changes v ∧
      changes.map Change.patched = Replacement.chosenFor maxFixedArity (Target.sites (t.scan u)) := by
  unfold substitute at h
  dsimp only at h
  rcases hrun : u.substituteSites maxFixedArity [] [] (Target.sites (t.scan u)).reverse with
    ⟨w, outcome, told⟩
  rw [hrun] at h
  cases h
  have hloaded : Tried u (Target.sites (t.scan u)) maxFixedArity [] u := .loaded
  obtain ⟨new, htried, hnew⟩ := hloaded.substituteSites (fun s => List.mem_reverse.mp) hrun
  rw [List.append_nil] at htried
  rw [List.reverse_reverse] at hnew
  exact ⟨new, htried.edited, hnew⟩

/-- The stack limits of a class after all its calls were replaced. -/
theorem exists_maxStack_of_substitute {bytes : List UInt8} (hload : ofBytes bytes = .ok u)
    {t : Target} (h : u.substitute t maxFixedArity = ⟨v, .ok records, events⟩)
    (hm : u.methods[i]? = some m) (hb : m.body? = some b) :
    ∃ m' b', v.methods[i]? = some m' ∧ m'.body? = some b' ∧ b'.maxStack.toNat =
      (t.replacementsIn u maxFixedArity i).foldr Replacement.raiseStack b.maxStack.toNat := by
  have hscratch := (loads_of_ofBytes hload).scratchBase_eq hm hb
  obtain ⟨changes, hedited, hchanges⟩ := edited_of_substitute h
  obtain ⟨m', b', hm', hb', hraised⟩ := hedited.exists_raisedTo hm hb hscratch
  have hstack := hraised.maxStack_eq
  rw [hchanges] at hstack
  exact ⟨m', b', hm', hb', hstack⟩

/-- After all calls of a class were replaced, the stack limit of each method is the loaded one raised
by one replacement after the other. Where the loaded limit has room for each of the calls, it has grown
by the sum of what the replacements need above their calls; this is the largest of their needs exactly
if no more than one of them needs anything. -/
theorem maxStack_of_substitute {bytes : List UInt8} (hload : ofBytes bytes = .ok u)
    {t : Target} (h : u.substitute t maxFixedArity = ⟨v, .ok records, events⟩)
    (hm : u.methods[i]? = some m) (hb : m.body? = some b) :
    ∃ m' b', v.methods[i]? = some m' ∧ m'.body? = some b' ∧
      b'.maxStack.toNat =
        (t.replacementsIn u maxFixedArity i).foldr Replacement.raiseStack b.maxStack.toNat ∧
      ((t.replacementsIn u maxFixedArity i).map (Replacement.stackNeed b.maxStack.toNat)).foldr max
        b.maxStack.toNat ≤ b'.maxStack.toNat ∧
      ((∀ r ∈ t.replacementsIn u maxFixedArity i, r.consumed ≤ b.maxStack.toNat) →
        b'.maxStack.toNat = b.maxStack.toNat +
          ((t.replacementsIn u maxFixedArity i).map Replacement.growth).sum ∧
        (b'.maxStack.toNat = ((t.replacementsIn u maxFixedArity i).map
            (Replacement.stackNeed b.maxStack.toNat)).foldr max b.maxStack.toNat ↔
          (t.replacementsIn u maxFixedArity i).countP (0 < ·.growth) ≤ 1)) := by
  obtain ⟨m', b', hm', hb', hstack⟩ := exists_maxStack_of_substitute hload h hm hb
  refine ⟨m', b', hm', hb', hstack, ?_, fun hfit => ?_⟩
  · rw [hstack]
    exact Replacement.foldr_stackNeed_le _ _
  · have hfit' : ∀ r ∈ t.replacementsIn u maxFixedArity i,
        r.consumed ≤ b.maxStack.toNat ∧ r.consumed ≤ r.peak :=
      fun r hr => ⟨hfit r hr, t.consumed_le_peak hr⟩
    have hsum := Replacement.foldr_raiseStack_eq hfit'
    refine ⟨hstack.trans hsum, ?_⟩
    rw [hstack, hsum, Replacement.foldr_stackNeed_eq hfit', Nat.add_left_cancel_iff,
      Replacement.sum_eq_foldr_max_iff, List.countP_map]
    rfl

end

/-! ### A method with two calls -/

theorem chosenFor_pairUnit :
    Replacement.chosenFor 10 (Target.sites (callerTarget.scan pairUnit)) =
      [(pairSite 1 1, Recipe.fixedArity.materialize 1),
        (pairSite 4 6, Recipe.fixedArity.materialize 1)] := by
  rw [sites_pairUnit, Replacement.chosenFor]
  simp only [List.filterMap_cons, List.filterMap_nil, pairSite_replacement]
  rfl

theorem replacementsIn_pairUnit : callerTarget.replacementsIn pairUnit 10 0 =
    [Recipe.fixedArity.materialize 1, Recipe.fixedArity.materialize 1] := by
  rw [Target.replacementsIn, chosenFor_pairUnit]
  rfl

theorem edited_staysWithin_pair : ofBytes pair.bytes = .ok pairUnit ∧ ∃ changes v m' b',
    Edited pairUnit changes v ∧
      changes.map Change.patched = [(pairSite 1 1, Recipe.fixedArity.materialize 1),
        (pairSite 4 6, Recipe.fixedArity.materialize 1)] ∧
      v.methods[0]? = some m' ∧ m'.body? = some b' ∧ b'.maxLocals.toNat = 1 ∧
      ∀ c ∈ changes, c.site.methodIndex = 0 → c.StaysWithin v.pool pairBody b' := by
  obtain ⟨events, h⟩ := pairUnit_substitute
  obtain ⟨changes, hedited, hchanges⟩ := edited_of_substitute h
  rw [chosenFor_pairUnit] at hchanges
  obtain ⟨m', b', hm', hb', hlocals, hstay⟩ :=
    edited_staysWithin ofBytes_pair hedited (i := 0) (b := pairBody) rfl rfl
  rw [hchanges] at hlocals
  exact ⟨ofBytes_pair, changes, _, m', b', hedited, hchanges, hm', hb', hlocals, hstay⟩

theorem foldr_raiseStack_pair :
    [Recipe.fixedArity.materialize 1, Recipe.fixedArity.materialize 1].foldr
      Replacement.raiseStack 1 = 5 ∧
    ([Recipe.fixedArity.materialize 1, Recipe.fixedArity.materialize 1].map
      (Replacement.stackNeed 1)).foldr max 1 = 3 := by
  have hpeak : (Recipe.fixedArity.materialize 1).peak = 3 := (Replacement.Chosen.fixedArity 1).peak_eq
  have hconsumed : (Recipe.fixedArity.materialize 1).consumed = 1 := by decide
  simp [Replacement.raiseStack, Replacement.stackNeed, hpeak, hconsumed]

/-- Each of the two replacements needs two slots above its call, and the limit grows by four. -/
theorem maxStack_of_substitute_pair : ofBytes pair.bytes = .ok pairUnit ∧ ∃ v records events m' b',
    pairUnit.substitute callerTarget 10 = ⟨v, .ok records, events⟩ ∧
      v.methods[0]? = some m' ∧ m'.body? = some b' ∧ b'.maxStack.toNat = 5 := by
  obtain ⟨events, h⟩ := pairUnit_substitute
  obtain ⟨m', b', hm', hb', hstack, -⟩ :=
    maxStack_of_substitute ofBytes_pair h (i := 0) (b := pairBody) rfl rfl
  rw [replacementsIn_pairUnit] at hstack
  exact ⟨ofBytes_pair, _, _, events, m', b', h, hm', hb',
    hstack.trans foldr_raiseStack_pair.1⟩

/-- The stack limit does not depend on the single replacements alone: three slots would do. -/
theorem maxStack_above_needs : ofBytes pair.bytes = .ok pairUnit ∧ ∃ v records events m' b',
    pairUnit.substitute callerTarget 10 = ⟨v, .ok records, events⟩ ∧
      v.methods[0]? = some m' ∧ m'.body? = some b' ∧
      b'.maxStack.toNat ≠ ((callerTarget.replacementsIn pairUnit 10 0).map
        (Replacement.stackNeed pairBody.maxStack.toNat)).foldr max pairBody.maxStack.toNat := by
  obtain ⟨events, h⟩ := pairUnit_substitute
  obtain ⟨m', b', hm', hb', hstack⟩ :=
    exists_maxStack_of_substitute ofBytes_pair h (i := 0) (b := pairBody) rfl rfl
  obtain ⟨hraised, hneeds⟩ := foldr_raiseStack_pair
  refine ⟨ofBytes_pair, _, _, events, m', b', h, hm', hb', ?_⟩
  have hlimit : pairBody.maxStack.toNat = 1 := rfl
  rw [hstack, replacementsIn_pairUnit, hlimit, hraised, hneeds]
  decide

end ClassUnit

end Retrofit
