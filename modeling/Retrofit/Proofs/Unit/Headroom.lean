import Retrofit.Proofs.Unit.Outcomes

/-!
# Headroom in the pool

Lowering a recipe appends at most the entries that the check for headroom reserves, for any number of
arguments. So a pool that has an index for each of its entries keeps one for each, whatever patches
are tried: every request to it is answered with the true place of the entry, and the stated size is
the true one. Both are 16-bit numbers, and neither is cut down on the way.
-/

namespace Retrofit

/-- One request to a pool: an entry is looked for by a test, and added if none passes. -/
structure PoolRequest where
  pool : Pool
  test : Constant → Bool
  entry : Constant

namespace PoolRequest

/-- What the pool makes of the request: the pool afterwards, and an index. -/
def answer (r : PoolRequest) : Pool × UInt16 := r.pool.intern r.test r.entry

/-- The place of the entry, counted from one: that of the first one that passes the test, or the next
one if none does. -/
def place (r : PoolRequest) : Nat := r.pool.entries.findIdx r.test + 1

/-- Nothing of the answer is lost in 16 bits. -/
structure Exact (r : PoolRequest) : Prop where
  size_le : r.answer.1.entries.size ≤ 65534
  index : r.answer.2.toNat = r.place
  stated : r.answer.1 = r.pool ∨ r.answer.1.statedSize.toNat = r.answer.1.entries.size + 1

theorem exact_of_size_le {r : PoolRequest} (h : r.answer.1.entries.size ≤ 65534) : r.Exact := by
  refine ⟨h, ?_, (r.pool.intern_restated r.test r.entry).toNat_eq h⟩
  rw [place, Array.findIdx_eq_getD_findIdx?]
  unfold answer Pool.intern Pool.indexOf? at h ⊢
  cases hfound : r.pool.entries.findIdx? r.test with
  | some k =>
      obtain ⟨hlt, -⟩ := Array.findIdx?_eq_some_iff_getElem.mp hfound
      rw [hfound] at h
      have hsize : r.pool.entries.size ≤ 65534 := h
      exact UInt16.toNat_ofNat_of_lt' (by show k + 1 < 65536; omega)
  | none =>
      rw [hfound] at h
      have hsize : (r.pool.entries.push r.entry).size ≤ 65534 := h
      show (UInt16.ofNat (r.pool.entries.push r.entry).size).toNat = r.pool.entries.size + 1
      rw [Array.size_push] at hsize ⊢
      exact Pool.toNat_succ_size (by omega)

/-- The requests are made one after the other, and lead from the pool `p` to the pool `q`. -/
inductive Chain : Pool → List PoolRequest → Pool → Prop
  | nil {p : Pool} : Chain p [] p
  | cons {p q : Pool} {test : Constant → Bool} {c : Constant} {rs : List PoolRequest}
      (tail : Chain (p.intern test c).1 rs q) : Chain p (⟨p, test, c⟩ :: rs) q

namespace Chain

variable {p q : Pool} {rs : List PoolRequest}

theorem one (p : Pool) (test : Constant → Bool) (c : Constant) :
    Chain p [⟨p, test, c⟩] (p.intern test c).1 := .cons .nil

theorem append {o : Pool} {ss : List PoolRequest} (h : Chain p rs q) (hss : Chain q ss o) :
    Chain p (rs ++ ss) o := by
  induction h with
  | nil => exact hss
  | cons _ ih => exact .cons (ih hss)

theorem grows (h : Chain p rs q) : p.Grows (fun _ => True) q := by
  induction h with
  | nil => exact .refl _ _
  | cons _ ih => exact (Pool.intern_grows _ _ _).trans ih

theorem restated (h : Chain p rs q) : p.Restated q := by
  induction h with
  | nil => exact Or.inl rfl
  | cons _ ih => exact (Pool.intern_restated _ _ _).trans ih

/-- If there is an index for each entry in the end, there was one all along. -/
theorem exact (h : Chain p rs q) (hsize : q.entries.size ≤ 65534) : ∀ r ∈ rs, r.Exact := by
  induction h with
  | nil => simp
  | cons tail ih =>
      refine List.forall_mem_cons.mpr ⟨?_, ih hsize⟩
      exact exact_of_size_le (Nat.le_trans tail.grows.size_le hsize)

end Chain

end PoolRequest

/-! ### What a replacement requests -/

namespace Pool

def textRequests (p : Pool) (text : String) : List PoolRequest :=
  [⟨p, fun c => match c with
    | .utf8 bs => bs == bytesOfText text
    | _ => false, .utf8 (bytesOfText text)⟩]

def classRequests (p : Pool) (name : String) : List PoolRequest :=
  let n := p.internText name
  p.textRequests name ++ [⟨n.1, (· == .classInfo n.2), .classInfo n.2⟩]

def nameAndTypeRequests (p : Pool) (name descriptor : String) : List PoolRequest :=
  let n := p.internText name
  let d := n.1.internText descriptor
  p.textRequests name ++ n.1.textRequests descriptor ++
    [⟨d.1, (· == .nameAndType n.2 d.2), .nameAndType n.2 d.2⟩]

def methodRequests (p : Pool) (owner name descriptor : String) (interface : Bool) :
    List PoolRequest :=
  let o := p.internClass owner
  let nt := o.1.internNameAndType name descriptor
  let c : Constant := if interface then .interfaceMethodRef o.2 nt.2 else .methodRef o.2 nt.2
  p.classRequests owner ++ o.1.nameAndTypeRequests name descriptor ++ [⟨nt.1, (· == c), c⟩]

theorem textRequests_chain (p : Pool) (text : String) :
    PoolRequest.Chain p (p.textRequests text) (p.internText text).1 := .one p _ _

theorem classRequests_chain (p : Pool) (name : String) :
    PoolRequest.Chain p (p.classRequests name) (p.internClass name).1 :=
  (p.textRequests_chain name).append (.one _ _ _)

theorem nameAndTypeRequests_chain (p : Pool) (name descriptor : String) :
    PoolRequest.Chain p (p.nameAndTypeRequests name descriptor)
      (p.internNameAndType name descriptor).1 :=
  ((p.textRequests_chain name).append (textRequests_chain _ descriptor)).append (.one _ _ _)

theorem methodRequests_chain (p : Pool) (owner name descriptor : String) (interface : Bool) :
    PoolRequest.Chain p (p.methodRequests owner name descriptor interface)
      (p.internMethod owner name descriptor interface).1 :=
  ((p.classRequests_chain owner).append (nameAndTypeRequests_chain _ name descriptor)).append
    (.one _ _ _)

end Pool

namespace Step

def requests (p : Pool) : Step → List PoolRequest
  | new type => p.classRequests type
  | invoke c => p.methodRequests c.owner c.name c.descriptor (c.kind == .interface)
  | _ => []

/-- The requests of the steps up to the first one that cannot be lowered. -/
def requestsOf (scratch : UInt16) : Pool → List Step → List PoolRequest
  | _, [] => []
  | p, s :: ss =>
    s.requests p ++
      match s.lower scratch p with
      | (q, .ok _) => requestsOf scratch q ss
      | (_, .error _) => []

theorem requests_chain (scratch : UInt16) (p : Pool) (s : Step) :
    PoolRequest.Chain p (s.requests p) (s.lower scratch p).1 := by
  cases s with
  | new type => exact p.classRequests_chain type
  | invoke c => exact p.methodRequests_chain _ _ _ _
  | _ => exact .nil

theorem requestsOf_chain (scratch : UInt16) (p : Pool) (acc : List Instruction) (steps : List Step) :
    PoolRequest.Chain p (requestsOf scratch p steps) (lowerOnto scratch p acc steps).1 := by
  induction steps generalizing p acc with
  | nil => exact .nil
  | cons s steps ih =>
      have hstep := s.requests_chain scratch p
      rcases hlower : s.lower scratch p with ⟨q, outcome⟩
      rw [hlower] at hstep
      rw [requestsOf, lowerOnto, hlower]
      cases outcome with
      | ok i => exact hstep.append (ih q (i :: acc))
      | error e =>
          rw [List.append_nil]
          exact hstep

end Step

/-- A replacement requests nothing of a pool that is too full. -/
def Replacement.requests (r : Replacement) (p : Pool) (scratch : UInt16) : List PoolRequest :=
  if p.headroom < poolDemand then [] else Step.requestsOf scratch p r.steps

theorem Replacement.requests_chain (r : Replacement) (p : Pool) (scratch : UInt16) :
    PoolRequest.Chain p (r.requests p scratch) (r.lower p scratch).1 := by
  unfold requests lower
  split
  · exact .nil
  · exact Step.requestsOf_chain scratch p [] r.steps

namespace ClassUnit

/-- What a patch requests of the pool. -/
def requests (u : ClassUnit) (s : CallSite) (r : Replacement) : List PoolRequest :=
  match u.bodyOf? s, r.stackProfile with
  | some b, .ok _ => r.requests u.pool b.scratchBase
  | _, _ => []

def requestsAll (u : ClassUnit) : List (CallSite × Replacement) → List PoolRequest
  | [] => []
  | (s, r) :: ps => u.requests s r ++ (u.patch s r).1.requestsAll ps

theorem requests_chain (u : ClassUnit) (s : CallSite) (r : Replacement) :
    PoolRequest.Chain u.pool (u.requests s r) (u.patch s r).1.pool := by
  unfold requests
  split
  · rename_i b profile hfound hprofile
    rw [pool_patch hfound hprofile]
    exact r.requests_chain u.pool b.scratchBase
  · rename_i hnot
    have hpool : (u.patch s r).1.pool = u.pool := by
      unfold patch
      split
      · rfl
      · rename_i b hfound
        split
        · rfl
        · rename_i profile hprofile
          exact absurd hprofile (hnot b profile hfound)
    rw [hpool]
    exact .nil

theorem requestsAll_chain (u : ClassUnit) (ps : List (CallSite × Replacement)) :
    PoolRequest.Chain u.pool (u.requestsAll ps) (u.patchAll ps).1.pool := by
  induction ps generalizing u with
  | nil => exact .nil
  | cons p ps ih => exact (u.requests_chain p.1 p.2).append (ih _)

/-! ### Any number of patches -/

theorem size_patch_le_max (u : ClassUnit) (s : CallSite) (recipe : Recipe) (n : UInt16) :
    (u.patch s (recipe.materialize n)).1.pool.entries.size ≤ max u.pool.entries.size 65534 := by
  rcases u.pool_patch_or s (recipe.materialize n) with hpool | ⟨b, -, hpool⟩ <;> rw [hpool]
  · exact Nat.le_max_left _ _
  · exact recipe.size_lower_le_max n u.pool b.scratchBase

theorem size_patchAll_le {u : ClassUnit} {ps : List (CallSite × Replacement)}
    (hsize : u.pool.entries.size ≤ 65534)
    (hps : ∀ p ∈ ps, ∃ recipe n, p.2 = Recipe.materialize recipe n) :
    (u.patchAll ps).1.pool.entries.size ≤ 65534 := by
  induction ps generalizing u with
  | nil => exact hsize
  | cons p ps ih =>
      obtain ⟨⟨recipe, n, hp⟩, hps⟩ := List.forall_mem_cons.mp hps
      have hmax := u.size_patch_le_max p.1 recipe n
      rw [← hp] at hmax
      have hpatch : (u.patch p.1 p.2).1.pool.entries.size ≤ 65534 := by omega
      exact ih hpatch hps

end ClassUnit

/-- Requests lead from the pool `p` to the pool `q`, and nothing is lost in 16 bits. -/
structure PoolRequest.Served (p : Pool) (rs : List PoolRequest) (q : Pool) : Prop where
  chain : Chain p rs q
  size_le : q.entries.size ≤ 65534
  exact : ∀ r ∈ rs, r.Exact
  stated : q = p ∨ q.statedSize.toNat = q.entries.size + 1
  /-- The size that is written out. -/
  synced : q.sync.statedSize.toNat = q.entries.size + 1

namespace ClassUnit

/-- A recipe is lowered with at most 32 new entries, whatever the pool has already and however many
arguments there are. So all that any patches with recipes request of a pool is served, if it had an
index for each of its entries in the beginning. -/
theorem requestsAll_served {u : ClassUnit} {ps : List (CallSite × Replacement)}
    (hsize : u.pool.entries.size ≤ 65534)
    (hps : ∀ p ∈ ps, ∃ recipe n, p.2 = Recipe.materialize recipe n) :
    (∀ (recipe : Recipe) (n scratch : UInt16) (p : Pool),
      ((recipe.materialize n).lower p scratch).1.entries.size ≤ p.entries.size + 32) ∧
    PoolRequest.Served u.pool (u.requestsAll ps) (u.patchAll ps).1.pool := by
  have hchain := u.requestsAll_chain ps
  have hend := size_patchAll_le hsize hps
  exact ⟨fun recipe n scratch p => recipe.size_lower_le n p scratch,
    ⟨hchain, hend, hchain.exact hend, hchain.restated.toNat_eq hend, Pool.toNat_succ_size hend⟩⟩

/-- Two patches of one call: the first one requests a method, the second one finds no call. -/
theorem requestsAll_served_caller :
    (callerUnit.requests callerSite (Recipe.zeroArity.materialize 0)).length = 6 ∧
    PoolRequest.Served callerUnit.pool
      (callerUnit.requestsAll [(callerSite, Recipe.zeroArity.materialize 0),
        (callerSite, Recipe.fixedArity.materialize 1)])
      (callerUnit.patchAll [(callerSite, Recipe.zeroArity.materialize 0),
        (callerSite, Recipe.fixedArity.materialize 1)]).1.pool := by
  refine ⟨?_, (requestsAll_served (by decide) ?_).2⟩
  · have hfound : callerUnit.bodyOf? callerSite = some (callerBody 10) := by cbv
    have hprofile : (Recipe.zeroArity.materialize 0).stackProfile = .ok ⟨1, 1⟩ := by cbv
    have hroom : ¬callerUnit.pool.headroom < Replacement.poolDemand := by decide
    rw [requests, hfound, hprofile]
    dsimp only
    rw [Replacement.requests, if_neg hroom]
    rfl
  · intro p hp
    simp only [List.mem_cons, List.not_mem_nil, or_false] at hp
    rcases hp with rfl | rfl <;> exact ⟨_, _, rfl⟩

end ClassUnit

end Retrofit
