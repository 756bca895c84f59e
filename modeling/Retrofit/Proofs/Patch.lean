import Retrofit.Patch
import Retrofit.Proofs.Body.Splicing

/-!
# What a patch does

A patch finds the call of its site, lowers the replacement into the pool and installs the spliced
body, which can be laid out; or it changes no more than the pool. It calls a site stale exactly if
the call is not where it was found.
-/

namespace Retrofit

namespace Body

/-- A patched body is the spliced one with limits of its own, and can be laid out. -/
theorem patch_eq_ok {b b' : Body} {position : Nat} {r : Replacement} {profile : StackProfile}
    {lowered : List Instruction} (h : b.patch position r profile lowered = .ok b') :
    b.stackLimit r profile ≤ 65535 ∧ b.localLimit r ≤ 65535 ∧
      b' = { b with
        maxStack := max (UInt16.ofNat (b.stackLimit r profile)) b.maxStack
        maxLocals := max (UInt16.ofNat (b.localLimit r)) b.maxLocals
        nodes := (b.splice position lowered).nodes } ∧
      ∃ c, b'.encode = .ok c := by
  unfold patch at h
  dsimp only at h
  split at h
  · cases h
  · rename_i hstack
    split at h
    · cases h
    · rename_i hlocals
      split at h
      · rename_i c hc
        cases h
        refine ⟨Nat.le_of_not_lt hstack, Nat.le_of_not_lt hlocals, ?_, c, hc⟩
        rw [splice_eq]
      · cases h

theorem patch_ne_stale {b : Body} {position : Nat} {r : Replacement} {profile : StackProfile}
    {lowered : List Instruction} (offset : Nat) :
    b.patch position r profile lowered ≠ .error (.stale offset) := by
  intro h
  unfold patch at h
  dsimp only at h
  split at h
  · cases h
  · split at h
    · cases h
    · split at h <;> cases h

/-- The site's call is the node at its position. -/
theorem holds_iff {b : Body} {site : CallSite} :
    b.holds site = true ↔ ∃ n, b.nodes[site.position]? = some n ∧ n.origin = some site.offset ∧
      n.instruction.call?.map Prod.snd = some site.index := by
  unfold holds
  split
  · rename_i n hn
    simp [hn]
  · rename_i hn
    simp [hn]

end Body

namespace ClassUnit

theorem bodyOf?_eq_some_iff {u : ClassUnit} {site : CallSite} {b : Body} :
    u.bodyOf? site = some b ↔
      ∃ m, u.methods[site.methodIndex]? = some m ∧ m.body? = some b ∧ b.holds site = true := by
  unfold bodyOf?
  simp only [Option.bind_eq_bind, Option.bind_eq_some_iff]
  constructor
  · rintro ⟨m, hm, b', hb', h⟩
    split at h
    · rename_i hholds
      cases h
      exact ⟨m, hm, hb', hholds⟩
    · cases h
  · rintro ⟨m, hm, hb, hholds⟩
    exact ⟨m, hm, b, hb, if_pos hholds⟩

/-- How a patch succeeds. -/
structure Patches (u : ClassUnit) (site : CallSite) (r : Replacement) (b : Body)
    (lowered : List Instruction) (v : ClassUnit) : Prop where
  found : u.bodyOf? site = some b
  lowers : ∃ pool, r.lower u.pool b.scratchBase = (pool, .ok lowered) ∧ v.pool = pool
  installs : ∃ profile b', r.stackProfile = .ok profile ∧
    b.patch site.position r profile lowered = .ok b' ∧
    v = (u.withPool v.pool).withBody site.methodIndex b'

/-- The body that a patch changes is the one of the site's method. -/
theorem Patches.body_eq {u v : ClassUnit} {site : CallSite} {r : Replacement} {b b' : Body}
    {lowered : List Instruction} {m : MethodUnit} (h : u.Patches site r b lowered v)
    (hm : u.methods[site.methodIndex]? = some m) (hb' : m.body? = some b') : b = b' := by
  obtain ⟨m', hm', hb, -⟩ := bodyOf?_eq_some_iff.mp h.found
  rw [hm, Option.some_inj] at hm'
  rw [← hm', hb', Option.some_inj] at hb
  exact hb.symm

theorem patches_of_patch {u v : ClassUnit} {site : CallSite} {r : Replacement}
    (h : u.patch site r = (v, .ok ())) : ∃ b lowered, u.Patches site r b lowered v := by
  unfold patch at h
  split at h
  · cases h
  · rename_i b hb
    split at h
    · cases h
    · rename_i profile hprofile
      split at h
      · cases h
      · rename_i pool lowered hlowered
        split at h
        · cases h
        · rename_i b' hb'
          cases h
          exact ⟨b, lowered, hb, ⟨pool, hlowered, rfl⟩, profile, b', hprofile, hb', rfl⟩

/-- A patch succeeds when each of its steps does. -/
theorem patch_eq_ok {u : ClassUnit} {site : CallSite} {r : Replacement} {b b' : Body}
    {profile : StackProfile} {pool : Pool} {lowered : List Instruction}
    (hfound : u.bodyOf? site = some b) (hprofile : r.stackProfile = .ok profile)
    (hlower : r.lower u.pool b.scratchBase = (pool, .ok lowered))
    (hpatch : b.patch site.position r profile lowered = .ok b') :
    u.patch site r = ((u.withPool pool).withBody site.methodIndex b', .ok ()) := by
  unfold patch
  rw [hfound]
  dsimp only
  rw [hprofile]
  dsimp only
  rw [hlower]
  dsimp only
  rw [hpatch]

theorem Patches.patch_eq {u v : ClassUnit} {site : CallSite} {r : Replacement} {b : Body}
    {lowered : List Instruction} (h : u.Patches site r b lowered v) :
    u.patch site r = (v, .ok ()) := by
  obtain ⟨pool, hlower, rfl⟩ := h.lowers
  obtain ⟨profile, b', hprofile, hpatch, hv⟩ := h.installs
  rw [patch_eq_ok h.found hprofile hlower hpatch, ← hv]

/-- The body and the instructions of a patch are the ones that it finds and lowers. -/
theorem patches_of_lower {u v : ClassUnit} {site : CallSite} {r : Replacement} {b : Body}
    {lowered : List Instruction} (hpatch : u.patch site r = (v, .ok ()))
    (hfound : u.bodyOf? site = some b)
    (hlower : r.lower u.pool b.scratchBase = (v.pool, .ok lowered)) :
    u.Patches site r b lowered v := by
  obtain ⟨b', lowered', hfound', ⟨pool, hlower', rfl⟩, hinstalls⟩ := patches_of_patch hpatch
  rw [hfound, Option.some_inj] at hfound'
  subst hfound'
  rw [hlower, Prod.mk.injEq, Except.ok.injEq] at hlower'
  obtain ⟨-, rfl⟩ := hlower'
  exact ⟨hfound, ⟨_, hlower, rfl⟩, hinstalls⟩

/-- A failed patch leaves everything but the pool as it was. -/
theorem eq_withPool_of_patch {u v : ClassUnit} {site : CallSite} {r : Replacement} {e : PatchError}
    (h : u.patch site r = (v, .error e)) : v = u.withPool v.pool := by
  unfold patch at h
  split at h
  · cases h
    rfl
  · split at h
    · cases h
      rfl
    · split at h
      · cases h
        rfl
      · split at h <;> cases h
        rfl

/-- A call that is where it was found is not stale. -/
theorem ne_stale_of_patch {u v : ClassUnit} {site : CallSite} {r : Replacement} {b : Body}
    {e : PatchError} (hfound : u.bodyOf? site = some b) (h : u.patch site r = (v, .error e))
    (offset : Nat) : e ≠ .stale offset := by
  rintro rfl
  unfold patch at h
  rw [hfound] at h
  dsimp only at h
  split at h
  · cases h
  · split at h
    · cases h
    · split at h
      · rename_i e he
        cases h
        exact Body.patch_ne_stale offset he
      · cases h

end ClassUnit

end Retrofit
