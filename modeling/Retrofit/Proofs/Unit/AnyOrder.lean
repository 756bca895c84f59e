import Mathlib.Data.List.Nodup
import Retrofit.Proofs.Body.Order
import Retrofit.Proofs.Recipe.Calls
import Retrofit.Proofs.Substitution
import Retrofit.Proofs.Unit.Emission

/-!
# Patches in any order

The sites of one scan may be patched in any order and again and again. The class is at any time the
loaded one with some of the calls replaced at once. A patch is refused as stale exactly if its call was
replaced before, or was moved by a replacement of another length in front of it: no other node has the
origin of the call, and what stands there after a replacement is another instruction.
-/

namespace Retrofit

/-! ### Where a loaded node is -/

namespace Body

/-- Nodes with distinct origins are at distinct positions. -/
theorem position_unique {nodes : List Node} (h : (nodes.filterMap Node.origin).Nodup) {i j o : Nat}
    {n m : Node} (hn : nodes[i]? = some n) (hm : nodes[j]? = some m) (hno : n.origin = some o)
    (hmo : m.origin = some o) : i = j := by
  rw [List.Nodup, List.pairwise_filterMap] at h
  obtain ⟨hi, rfl⟩ := List.getElem?_eq_some_iff.mp hn
  obtain ⟨hj, rfl⟩ := List.getElem?_eq_some_iff.mp hm
  have hne := List.pairwise_iff_getElem.mp h
  rcases Nat.lt_trichotomy i j with hlt | heq | hlt
  · exact absurd rfl (hne i j hi hj hlt o hno o hmo)
  · exact heq
  · exact absurd rfl (hne j i hj hi hlt o hmo o hno)

section

variable {new : Nat → Option (List Instruction)} (hne : ∀ k is, new k = some is → is ≠ [])

include hne

theorem standsFor_replaceNode (p : Node × Nat) :
    StandsFor (fun _ => True) p.1 (replaceNode new p) := by
  unfold replaceNode
  split
  · rename_i is his
    obtain ⟨i, is, rfl⟩ := List.exists_cons_of_ne_nil (hne _ is his)
    exact .replaced fun _ _ => trivial
  · exact .kept

theorem runs_replaceNodes (nodes : List Node) :
    Runs (fun _ => True) nodes (replaceNodes new nodes) (nodes.zipIdx.map (replaceNode new)) := by
  refine ⟨?_, List.flatMap_def⟩
  have hruns : List.Forall₂ (StandsFor fun _ => True) (nodes.zipIdx.map Prod.fst)
      (nodes.zipIdx.map (replaceNode new)) := by
    rw [List.forall₂_map_left_iff, List.forall₂_map_right_iff, List.forall₂_same]
    exact fun p _ => standsFor_replaceNode hne p
  rwa [List.zipIdx_map_fst] at hruns

theorem length_flatMap_replaceNode (ps : List (Node × Nat)) :
    ps.length ≤ (ps.flatMap (replaceNode new)).length ∧
      ((ps.flatMap (replaceNode new)).length = ps.length ↔
        ∀ p ∈ ps, ∀ is, new p.2 = some is → is.length = 1) := by
  induction ps with
  | nil => simp
  | cons p ps ih =>
      obtain ⟨hle, hiff⟩ := ih
      rw [List.flatMap_cons, List.length_append, List.length_cons, List.forall_mem_cons, ← hiff,
        replaceNode]
      split
      · rename_i is his
        have hpos := List.length_pos_iff.mpr (hne _ is his)
        have hone : (∀ js, new p.2 = some js → js.length = 1) ↔ is.length = 1 := by
          rw [his]
          simp
        rw [length_replacementNodes, hone]
        omega
      · rename_i hnone
        have hone : (∀ js, new p.2 = some js → js.length = 1) ↔ True := by
          rw [hnone]
          simp
        rw [List.length_singleton, hone, true_and]
        omega

/-- A node that was not replaced is in place exactly if each of those before it gave way to one
instruction at most. -/
theorem inPlace_iff {nodes : List Node} {k : Nat} (hlt : k < nodes.length) :
    InPlace new nodes k ↔
      new k = none ∧ ∀ j is, j < k → new j = some is → is.length = 1 := by
  have hlen : (nodes.take k).zipIdx.length = k := by
    rw [List.length_zipIdx, List.length_take_of_le (Nat.le_of_lt hlt)]
  have hiff := (length_flatMap_replaceNode hne (nodes.take k).zipIdx).2
  rw [hlen] at hiff
  constructor
  · rintro ⟨hkept, hlength⟩
    refine ⟨hkept, fun j is hj his => ?_⟩
    have hj' : j < nodes.length := Nat.lt_trans hj hlt
    refine hiff.mp hlength (nodes[j], j) ?_ is his
    rw [List.mk_mem_zipIdx_iff_getElem?, List.getElem?_take_of_lt hj, List.getElem?_eq_getElem hj']
  · rintro ⟨hkept, hone⟩
    refine ⟨hkept, hiff.mpr fun p hp is his => hone p.2 is ?_ his⟩
    have hp := List.snd_lt_of_mem_zipIdx hp
    rwa [List.length_take_of_le (Nat.le_of_lt hlt)] at hp

end

/-- A site's call is found exactly if it is in place, unless what it was replaced with starts with a
call of the same pool entry. -/
theorem holds_iff_inPlace {b b' : Body} {new : Nat → Option (List Instruction)} {site : CallSite}
    {n : Node} (hb : b.Anchored) (hnodes : b'.nodes = replaceNodes new b.nodes)
    (hne : ∀ k is, new k = some is → is ≠ []) (hn : b.nodes[site.position]? = some n)
    (horigin : n.origin = some site.offset)
    (hcall : n.instruction.call?.map Prod.snd = some site.index)
    (hhead : ∀ i is, new site.position = some (i :: is) →
      i.call?.map Prod.snd ≠ some site.index) :
    b'.holds site = true ↔ InPlace new b.nodes site.position := by
  constructor
  · intro hholds
    obtain ⟨n', hn', horigin', hcall'⟩ := holds_iff.mp hholds
    have hsplit := replaceNodes_eq_append new hn
    have hruns := standsFor_replaceNode hne (n, site.position)
    obtain ⟨m, rest, hrun, hm⟩ := hruns.exists_head
    rw [← hnodes, hrun] at hsplit
    have hfirst : b'.nodes[(replaceNodes new (b.nodes.take site.position)).length]? = some m := by
      rw [hsplit, List.getElem?_append_right (Nat.le_refl _), Nat.sub_self]
      rfl
    have hnodup : (b'.nodes.filterMap Node.origin).Nodup := by
      rw [hnodes, (runs_replaceNodes hne b.nodes).filterMap_origin]
      exact hb.nodup
    have hposition := position_unique hnodup hfirst hn' (hm.trans horigin) horigin'
    refine ⟨?_, hposition⟩
    rw [hposition, hn', Option.some_inj] at hfirst
    cases hnew : new site.position with
    | none => rfl
    | some is =>
        obtain ⟨i, is, rfl⟩ := List.exists_cons_of_ne_nil (hne _ is hnew)
        rw [replaceNode, hnew] at hrun
        cases hrun
        rw [hfirst] at hcall'
        exact absurd hcall' (hhead i is hnew)
  · intro hplace
    obtain ⟨hn', -⟩ := splice_replaceNodes hnodes hn hplace []
    exact holds_iff.mpr ⟨n, hn', horigin, hcall⟩

end Body

/-- Lowering only appends to the pool, whatever comes of it. -/
theorem Replacement.lower_grows (r : Replacement) (p : Pool) (scratch : UInt16) :
    p.Grows (fun _ => True) (r.lower p scratch).1 := by
  have hgrows : p.Grows (Constant.Interned fun _ => True) (Step.lowerOnto scratch p [] r.steps).1 :=
    Step.lowerOnto_grows scratch (fun _ _ _ _ => trivial) p []
  unfold lower
  split
  · exact .refl _ p
  · exact hgrows.mono fun _ _ => trivial

/-- A site's pool entry names the sought method. -/
theorem Target.member_of_mem_sites {t : Target} {u : ClassUnit} {s : CallSite}
    (h : s ∈ sites (t.scan u)) :
    ∃ descriptor interface, u.pool.member? s.index = some ⟨t.owner, t.name, descriptor, interface⟩ := by
  rw [sites_scan, List.mem_flatMap] at h
  obtain ⟨⟨m, i⟩, -, hs⟩ := h
  obtain ⟨-, -, b, -, c, -, hdescribes⟩ := mem_sitesIn hs
  obtain ⟨interface, hmember⟩ := hdescribes.member
  rw [hdescribes.owner, hdescribes.name] at hmember
  exact ⟨s.descriptor, interface, hmember⟩

/-! ### One patch after the other -/

namespace Change

theorem mem_of_lookup {changes : List Change} {i k : Nat} {is : List Instruction}
    (h : lookup changes i k = some is) :
    ∃ c ∈ changes, c.site.methodIndex = i ∧ c.site.position = k ∧ c.lowered = is := by
  obtain ⟨c, hfind, rfl⟩ := Option.map_eq_some_iff.mp h
  have htest := List.find?_some hfind
  rw [Bool.and_eq_true, beq_iff_eq, beq_iff_eq] at htest
  exact ⟨c, List.mem_of_find?_eq_some hfind, htest.1, htest.2, rfl⟩

/-- The change is the one that was chosen for its site, lowered for the method as it was loaded and
with a pool that was to become `q`. -/
structure Compiled (u : ClassUnit) (maxFixedArity : Nat) (q : Pool) (c : Change) : Prop where
  chosen : c.site.replacement maxFixedArity = .ok c.replacement
  lowers : ∃ b p p', u.methods[c.site.methodIndex]?.bind MethodUnit.body? = some b ∧
    c.replacement.lower p b.scratchBase = (p', .ok c.lowered) ∧ p'.Grows (fun _ => True) q

namespace Compiled

variable {u : ClassUnit} {maxFixedArity : Nat} {p q : Pool} {c : Change}

theorem grow (h : c.Compiled u maxFixedArity p) (hgrows : p.Grows (fun _ => True) q) :
    c.Compiled u maxFixedArity q := by
  obtain ⟨b, p₀, p', hb, hlower, hp'⟩ := h.lowers
  exact ⟨h.chosen, b, p₀, p', hb, hlower, hp'.trans hgrows⟩

theorem lowered_ne_nil (h : c.Compiled u maxFixedArity q) : c.lowered ≠ [] := by
  obtain ⟨b, p, p', -, hlower, -⟩ := h.lowers
  obtain ⟨recipe, n, hrecipe⟩ := Replacement.exists_materialize h.chosen
  rw [hrecipe] at hlower
  exact (Recipe.lower_materialize hlower).2.2.1

/-- If the first new instruction is a call, it is one of the factory of empty lists. -/
theorem head_member? (h : c.Compiled u maxFixedArity q) {i : Instruction} {is : List Instruction}
    (hlowered : c.lowered = i :: is) {kind : CallKind} {index : UInt16}
    (hcall : i.call? = some (kind, index)) :
    q.member? index = some ⟨"java/util/Collections", "emptyList", "()Ljava/util/List;", false⟩ := by
  obtain ⟨b, p, p', -, hlower, hgrows⟩ := h.lowers
  obtain ⟨recipe, n, hrecipe⟩ := Replacement.exists_materialize h.chosen
  rw [hrecipe, hlowered] at hlower
  exact hgrows.member?_eq (Recipe.head_lower hlower hcall)

end Compiled

end Change

/-- The site's call was moved: a call in front of it gave way to more than one instruction. -/
def CallSite.Shifted (changes : List Change) (s : CallSite) : Prop :=
  ∃ c ∈ changes, c.site.methodIndex = s.methodIndex ∧ c.site.position < s.position ∧
    c.lowered.length ≠ 1

namespace ClassUnit

/-- The class was got from `u` by trying to patch sites among the given ones, in any order and with
repetitions. The changes are the patches that succeeded, the last one first. -/
inductive Tried (u : ClassUnit) (sites : List CallSite) (maxFixedArity : Nat) :
    List Change → ClassUnit → Prop
  | loaded : Tried u sites maxFixedArity [] u
  | replaced {changes : List Change} {v w : ClassUnit} {s : CallSite} {r : Replacement} {b : Body}
      {is : List Instruction} (h : Tried u sites maxFixedArity changes v) (hs : s ∈ sites)
      (hr : s.replacement maxFixedArity = .ok r) (hpatch : v.patch s r = (w, .ok ()))
      (hfound : v.bodyOf? s = some b) (hlower : r.lower v.pool b.scratchBase = (w.pool, .ok is)) :
      Tried u sites maxFixedArity (⟨s, r, is⟩ :: changes) w
  | refused {changes : List Change} {v w : ClassUnit} {s : CallSite} {r : Replacement}
      {e : PatchError} (h : Tried u sites maxFixedArity changes v) (hs : s ∈ sites)
      (hr : s.replacement maxFixedArity = .ok r) (hpatch : v.patch s r = (w, .error e)) :
      Tried u sites maxFixedArity changes w

/-- The class is `u` with calls at some of the sites replaced at once, each at most once and by the
compiled sequence of its own replacement. -/
structure SafelyPatched (u : ClassUnit) (sites : List CallSite) (maxFixedArity : Nat)
    (changes : List Change) (v : ClassUnit) : Prop where
  substituted : u.Substituted changes v
  grows : u.pool.Grows (fun _ => True) v.pool
  once : (changes.map Change.site).Nodup
  compiled : ∀ c ∈ changes, c.site ∈ sites ∧ c.Compiled u maxFixedArity v.pool

section

variable {u v w : ClassUnit} {t : Target} {maxFixedArity : Nat} {changes : List Change} {s : CallSite}

/-- Two sites of one scan at the same place are the same. -/
theorem site_unique {s s' : CallSite} (hs : s ∈ Target.sites (t.scan u))
    (hs' : s' ∈ Target.sites (t.scan u)) (hmethod : s.methodIndex = s'.methodIndex)
    (hposition : s.position = s'.position) : s = s' := by
  have horder := List.pairwise_iff_getElem.mp (t.sites_increasing u)
  obtain ⟨i, hi, rfl⟩ := List.mem_iff_getElem.mp hs
  obtain ⟨j, hj, rfl⟩ := List.mem_iff_getElem.mp hs'
  rcases Nat.lt_trichotomy i j with hlt | rfl | hlt
  · have hbefore := horder i j hi hj hlt
    unfold CallSite.Before at hbefore
    omega
  · rfl
  · have hbefore := horder j i hj hi hlt
    unfold CallSite.Before at hbefore
    omega

theorem patch_stale_iff {r : Replacement} :
    (v.patch s r).2 = .error (.stale s.offset) ↔ v.bodyOf? s = none := by
  constructor
  · intro hstale
    cases hfound : v.bodyOf? s with
    | none => rfl
    | some b =>
        have hpatch : v.patch s r = ((v.patch s r).1, .error (.stale s.offset)) := Prod.ext rfl hstale
        exact absurd rfl (ne_stale_of_patch hfound hpatch s.offset)
  · intro hnone
    unfold patch
    rw [hnone]

/-- Whatever comes of a patch, it only appends to the pool. -/
theorem grows_of_patch (v : ClassUnit) (s : CallSite) (r : Replacement) :
    v.pool.Grows (fun _ => True) (v.patch s r).1.pool := by
  unfold patch
  split
  · exact .refl _ _
  rename_i b hb
  split
  · exact .refl _ _
  have hgrows := r.lower_grows v.pool b.scratchBase
  split
  · rename_i pool e hlower
    rw [hlower] at hgrows
    exact hgrows
  · rename_i pool lowered hlower
    rw [hlower] at hgrows
    split <;> exact hgrows

/-- A refused patch changes no more than the pool. -/
theorem Substituted.withPool (h : u.Substituted changes v) (pool : Pool) :
    u.Substituted changes (v.withPool pool) := by
  refine ⟨h.name_eq, ?_, h.methods⟩
  show { v.file with pool } = { u.file with pool }
  rw [h.file_eq]

end

section

variable {u v w : ClassUnit} {t : Target} {maxFixedArity : Nat} {changes : List Change}
  (h : SafelyPatched u (Target.sites (t.scan u)) maxFixedArity changes v)

include h

namespace SafelyPatched

theorem lookup_eq_some {c : Change} (hc : c ∈ changes) :
    Change.lookup changes c.site.methodIndex c.site.position = some c.lowered := by
  cases hlookup : Change.lookup changes c.site.methodIndex c.site.position with
  | none =>
      unfold Change.lookup at hlookup
      rw [Option.map_eq_none_iff, List.find?_eq_none] at hlookup
      exact absurd (by simp) (hlookup c hc)
  | some is =>
      obtain ⟨c', hc', hmethod, hposition, rfl⟩ := Change.mem_of_lookup hlookup
      have hsite := site_unique (h.compiled c' hc').1 (h.compiled c hc).1 hmethod hposition
      rw [List.inj_on_of_nodup_map h.once hc' hc hsite]

theorem ne_nil_of_lookup {i k : Nat} {is : List Instruction}
    (hlookup : Change.lookup changes i k = some is) : is ≠ [] := by
  obtain ⟨c, hc, -, -, rfl⟩ := Change.mem_of_lookup hlookup
  exact (h.compiled c hc).2.lowered_ne_nil

/-- What replaced a call of any other method does not start with a call of that method. -/
theorem head_ne (htarget : ¬(t.owner = "java/util/Collections" ∧ t.name = "emptyList"))
    {s : CallSite} (hs : s ∈ Target.sites (t.scan u)) {i : Instruction} {is : List Instruction}
    (hlookup : Change.lookup changes s.methodIndex s.position = some (i :: is)) :
    i.call?.map Prod.snd ≠ some s.index := by
  intro hcall
  obtain ⟨⟨kind, index⟩, hcall, rfl⟩ := Option.map_eq_some_iff.mp hcall
  obtain ⟨c, hc, -, -, hlowered⟩ := Change.mem_of_lookup hlookup
  have hhead := (h.compiled c hc).2.head_member? hlowered hcall
  obtain ⟨descriptor, interface, hmember⟩ := Target.member_of_mem_sites hs
  rw [h.grows.member?_eq hmember, Option.some_inj, MemberRef.mk.injEq] at hhead
  exact htarget ⟨hhead.1, hhead.2.1⟩

theorem inPlace_iff {s : CallSite} (hs : s ∈ Target.sites (t.scan u)) {b : Body}
    (hlt : s.position < b.nodes.length) :
    Body.InPlace (Change.lookup changes s.methodIndex) b.nodes s.position ↔
      ¬(s ∈ changes.map Change.site ∨ s.Shifted changes) := by
  rw [Body.inPlace_iff (fun _ _ => h.ne_nil_of_lookup) hlt]
  constructor
  · rintro ⟨hnone, hone⟩ (hmem | ⟨c, hc, hmethod, hbefore, hlength⟩)
    · obtain ⟨c, hc, rfl⟩ := List.mem_map.mp hmem
      rw [h.lookup_eq_some hc] at hnone
      cases hnone
    · refine hlength (hone c.site.position c.lowered hbefore ?_)
      rw [← hmethod]
      exact h.lookup_eq_some hc
  · intro hnot
    obtain ⟨hmem, hshifted⟩ := not_or.mp hnot
    constructor
    · apply Change.lookup_eq_none
      rintro c hc ⟨hmethod, hposition⟩
      have hsite := site_unique (h.compiled c hc).1 hs hmethod hposition
      exact hmem (List.mem_map.mpr ⟨c, hc, hsite⟩)
    · intro j is hj hlookup
      obtain ⟨c, hc, hmethod, rfl, rfl⟩ := Change.mem_of_lookup hlookup
      exact Decidable.not_not.mp fun hlength => hshifted ⟨c, hc, hmethod, hj, hlength⟩

section

variable (hsound : ∀ m ∈ u.methods, ∀ b, m.body? = some b → b.Sound)
  (htarget : ¬(t.owner = "java/util/Collections" ∧ t.name = "emptyList"))
  {s : CallSite} (hs : s ∈ Target.sites (t.scan u))

include hsound htarget hs

/-- A call is missed exactly if it was replaced or shifted. -/
theorem bodyOf?_eq_none_iff :
    v.bodyOf? s = none ↔ s ∈ changes.map Change.site ∨ s.Shifted changes := by
  obtain ⟨m, b, n, hm, -, hb, hn, horigin, hcall⟩ := Target.found_of_mem_sites hs
  obtain ⟨m', b', maxStack, maxLocals, hm', hb', hbody, -⟩ := h.substituted.exists_body hm hb
  have hnodes : b'.nodes = _ := congrArg Body.nodes hbody
  have hanchored := (hsound m (List.mem_of_getElem? hm) b hb).anchored
  have hindex : n.instruction.call?.map Prod.snd = some s.index := by
    rw [hcall]
    rfl
  have hholds := Body.holds_iff_inPlace hanchored hnodes (fun _ _ => h.ne_nil_of_lookup) hn horigin
    hindex fun i is => h.head_ne htarget hs
  rw [h.inPlace_iff hs (List.getElem?_eq_some_iff.mp hn).1] at hholds
  rw [← not_iff_not, ← hholds, ← ne_eq, Option.ne_none_iff_exists']
  constructor
  · rintro ⟨b'', hfound⟩
    obtain ⟨m'', hm'', hb'', hb''holds⟩ := bodyOf?_eq_some_iff.mp hfound
    rw [hm', Option.some_inj] at hm''
    subst hm''
    rw [hb', Option.some_inj] at hb''
    subst hb''
    exact hb''holds
  · intro hb'holds
    exact ⟨b', bodyOf?_eq_some_iff.mpr ⟨m', hm', hb', hb'holds⟩⟩

/-- A patch that succeeds makes one change more. -/
theorem replaced {r : Replacement} (hr : s.replacement maxFixedArity = .ok r) {b : Body}
    {is : List Instruction} (hpatch : v.patch s r = (w, .ok ())) (hfound : v.bodyOf? s = some b)
    (hlower : r.lower v.pool b.scratchBase = (w.pool, .ok is)) :
    SafelyPatched u (Target.sites (t.scan u)) maxFixedArity (⟨s, r, is⟩ :: changes) w := by
  have hnot : ¬(s ∈ changes.map Change.site ∨ s.Shifted changes) := by
    rw [← h.bodyOf?_eq_none_iff hsound htarget hs, hfound]
    simp
  obtain ⟨m, b₀, n, hm, -, hb₀, hn, -⟩ := Target.found_of_mem_sites hs
  have hplace := (h.inPlace_iff hs (List.getElem?_eq_some_iff.mp hn).1).mpr hnot
  have hpatches := patches_of_lower hpatch hfound hlower
  obtain ⟨hscratch, hsubstituted⟩ := h.substituted.patch hm hb₀ hn hplace hpatches
  have hgrows := v.grows_of_patch s r
  rw [hpatch] at hgrows
  refine ⟨hsubstituted, h.grows.trans hgrows, ?_, ?_⟩
  · rw [List.map_cons, List.nodup_cons]
    exact ⟨fun hmem => hnot (Or.inl hmem), h.once⟩
  · rw [List.forall_mem_cons]
    refine ⟨⟨hs, hr, b₀, v.pool, w.pool, ?_, ?_, .refl _ _⟩, fun c hc => ?_⟩
    · rw [hm]
      exact hb₀
    · rw [← hscratch]
      exact hlower
    · obtain ⟨hsite, hcompiled⟩ := h.compiled c hc
      exact ⟨hsite, hcompiled.grow hgrows⟩

end

/-- A patch that is refused makes none. -/
theorem refused {s : CallSite} {r : Replacement} {e : PatchError}
    (hpatch : v.patch s r = (w, .error e)) :
    SafelyPatched u (Target.sites (t.scan u)) maxFixedArity changes w := by
  have hgrows := v.grows_of_patch s r
  rw [hpatch] at hgrows
  have hsubstituted := h.substituted.withPool w.pool
  rw [← eq_withPool_of_patch hpatch] at hsubstituted
  refine ⟨hsubstituted, h.grows.trans hgrows, h.once, fun c hc => ?_⟩
  obtain ⟨hsite, hcompiled⟩ := h.compiled c hc
  exact ⟨hsite, hcompiled.grow hgrows⟩

end SafelyPatched

end

section

variable {bytes : List UInt8} {u v : ClassUnit} {t : Target} {maxFixedArity : Nat}
  {changes : List Change}

/-- Any site may be tried next. -/
theorem Tried.exists_next {sites : List CallSite} (h : Tried u sites maxFixedArity changes v)
    {s : CallSite} (hs : s ∈ sites) {r : Replacement} (hr : s.replacement maxFixedArity = .ok r) :
    ∃ changes', Tried u sites maxFixedArity changes' (v.patch s r).1 := by
  rcases hpatch : v.patch s r with ⟨w, outcome⟩
  cases outcome with
  | error e => exact ⟨changes, h.refused hs hr hpatch⟩
  | ok done =>
      obtain ⟨b, is, hfound, ⟨pool, hlower, rfl⟩, -⟩ := patches_of_patch hpatch
      exact ⟨_, h.replaced hs hr hpatch hfound hlower⟩

/-- However the sites of a scan were tried, the loaded class has some of their calls replaced, each at
most once and by its own replacement, and all else is as it was. A patch is refused as stale exactly
if its call was replaced or shifted before. -/
theorem tried_safelyPatched (hload : ofBytes bytes = .ok u)
    (htarget : ¬(t.owner = "java/util/Collections" ∧ t.name = "emptyList"))
    (h : Tried u (Target.sites (t.scan u)) maxFixedArity changes v) :
    SafelyPatched u (Target.sites (t.scan u)) maxFixedArity changes v ∧
      ∀ s ∈ Target.sites (t.scan u), ∀ r, s.replacement maxFixedArity = .ok r →
        ((v.patch s r).2 = .error (.stale s.offset) ↔
          s ∈ changes.map Change.site ∨ s.Shifted changes) := by
  have hsound := (loads_of_ofBytes hload).sound
  have hsafe : SafelyPatched u (Target.sites (t.scan u)) maxFixedArity changes v := by
    induction h with
    | loaded => exact ⟨u.substituted_refl, .refl _ _, .nil, by simp⟩
    | replaced _ hs hr hpatch hfound hlower ih =>
        exact ih.replaced hsound htarget hs hr hpatch hfound hlower
    | refused _ _ _ hpatch ih => exact ih.refused hpatch
  refine ⟨hsafe, fun s hs r _ => ?_⟩
  rw [patch_stale_iff]
  exact hsafe.bodyOf?_eq_none_iff hsound htarget hs

/-- The list factory whose calls are replaced in the classes below. -/
def callerTarget : Target := ⟨"java/util/List", "of", none⟩

theorem sites_pairUnit :
    Target.sites (callerTarget.scan pairUnit) = [pairSite 1 1, pairSite 4 6] := by decide +kernel

/-- Both calls are replaced if the second one comes first. If the first one does, the second one is
shifted by it. -/
theorem tried_safelyPatched_pair : ofBytes pair.bytes = .ok pairUnit ∧
    (∃ changes, Tried pairUnit (Target.sites (callerTarget.scan pairUnit)) 10 changes pairTwice ∧
      changes.map Change.site = [pairSite 1 1, pairSite 4 6] ∧
      pairUnit.Substituted changes pairTwice) ∧
    ∃ change v, Tried pairUnit (Target.sites (callerTarget.scan pairUnit)) 10 [change] v ∧
      change.site = pairSite 1 1 ∧ (v.patch (pairSite 4 6) change.replacement).2 = .error (.stale 6) := by
  have htarget : ¬(callerTarget.owner = "java/util/Collections" ∧
      callerTarget.name = "emptyList") := by decide
  have hmem (s : CallSite) (hs : s = pairSite 1 1 ∨ s = pairSite 4 6) :
      s ∈ Target.sites (callerTarget.scan pairUnit) := by
    rw [sites_pairUnit]
    exact List.mem_pair.mpr hs
  have hprofile : (Recipe.fixedArity.materialize 1).stackProfile = .ok ⟨3, 1⟩ := by cbv
  have hloaded : Tried pairUnit (Target.sites (callerTarget.scan pairUnit)) 10 [] pairUnit := .loaded
  obtain ⟨hsecond, hfirst⟩ := pairUnit_patch
  refine ⟨ofBytes_pair, ?_, ?_⟩
  · have hboth := (hloaded.replaced (hmem _ (.inr rfl)) (pairSite_replacement 4 6) hsecond rfl
      pairPool_lower).replaced (hmem _ (.inl rfl)) (pairSite_replacement 1 1) hfirst rfl pairPool_lower
    exact ⟨_, hboth, rfl, (tried_safelyPatched ofBytes_pair htarget hboth).1.substituted⟩
  · have hbody : pairBody.patch 1 (Recipe.fixedArity.materialize 1) ⟨3, 1⟩ pairLowered =
        .ok { pairBody.splice 1 pairLowered with maxStack := 3, maxLocals := 1 } := by decide +kernel
    have hpatch : pairUnit.patch (pairSite 1 1) (Recipe.fixedArity.materialize 1) = _ :=
      patch_eq_ok rfl hprofile pairPool_lower hbody
    have hone := hloaded.replaced (hmem _ (.inl rfl)) (pairSite_replacement 1 1) hpatch rfl
      pairPool_lower
    have hstale := (tried_safelyPatched ofBytes_pair htarget hone).2 _ (hmem _ (.inr rfl)) _
      (pairSite_replacement 4 6)
    exact ⟨_, _, hone, rfl,
      hstale.mpr (Or.inr ⟨_, List.mem_cons_self, rfl, by decide, by decide⟩)⟩

theorem pairUnit_substitute : ∃ events, pairUnit.substitute callerTarget 10 =
    ⟨pairTwice, .ok [.ofSite (pairSite 1 1) (Recipe.fixedArity.materialize 1),
      .ofSite (pairSite 4 6) (Recipe.fixedArity.materialize 1)], events⟩ := by
  have hboth : (pairUnit.substitute callerTarget 10).unit = pairTwice ∧
      (pairUnit.substitute callerTarget 10).outcome =
        .ok [.ofSite (pairSite 1 1) (Recipe.fixedArity.materialize 1),
          .ofSite (pairSite 4 6) (Recipe.fixedArity.materialize 1)] := by
    decide +kernel
  generalize pairUnit.substitute callerTarget 10 = attempt at hboth ⊢
  obtain ⟨v, outcome, events⟩ := attempt
  obtain ⟨rfl, rfl⟩ := hboth
  exact ⟨events, rfl⟩

end

end ClassUnit

end Retrofit
