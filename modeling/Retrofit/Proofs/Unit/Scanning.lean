import Mathlib.Data.List.Basic
import Retrofit.Proofs.CallSite
import Retrofit.Recipe

/-!
# What a scan finds, instruction by instruction

But for its place, a call site can be told from the call instruction and the pool alone. So a scan of
a loaded body finds the same sites as a look at each of its instructions.
-/

namespace Retrofit

namespace CallSite

/-- The site as far as it does not say where the call is in its method. -/
def unplaced (s : CallSite) : CallSite := { s with position := 0, offset := 0, line := none }

/-- No recipe covers the site. -/
def rejected (maxFixedArity : Nat) (s : CallSite) : Bool :=
  (s.replacement maxFixedArity).toOption.isNone

variable {maxFixedArity : Nat} {s : CallSite}

theorem rejected_unplaced : s.unplaced.rejected maxFixedArity = s.rejected maxFixedArity := rfl

theorem rejected_iff :
    s.rejected maxFixedArity = true ↔ ∃ e, s.replacement maxFixedArity = .error e := by
  unfold rejected
  cases s.replacement maxFixedArity <;> simp [Except.toOption]

theorem not_rejected_iff :
    s.rejected maxFixedArity = false ↔ ∃ r, s.replacement maxFixedArity = .ok r := by
  unfold rejected
  cases s.replacement maxFixedArity <;> simp [Except.toOption]

/-- Only static calls are covered. -/
theorem rejected_of_kind (h : s.kind ≠ .static) : s.rejected maxFixedArity = true :=
  rejected_iff.mpr ⟨.notStatic s.kind, if_pos h⟩

end CallSite

/-- All the nodes are loaded instructions. -/
def Body.AllLoaded (b : Body) : Prop := ∀ n ∈ b.nodes, n.origin ≠ none

/-- The site that a finding is, if it is one. -/
def Finding.site? : Finding → Option CallSite
  | .site s => some s
  | _ => none

namespace Target

variable (t : Target) (pool : Pool) (i : Nat) (name : String)

/-- The site at a node and its position, if the scan finds one there. -/
def siteAt (b : Body) (p : Node × Nat) : Option CallSite :=
  p.1.instruction.call?.bind fun (kind, index) =>
    (t.classify pool i name b ⟨p.2, p.1.origin, kind, index⟩).bind Finding.site?

/-- A body to which nothing is known. -/
def blank : Body := ⟨0, 0, 0, [], 0, [], []⟩

/-- The site of an instruction wherever it stands. -/
def look (instruction : Instruction) : Option CallSite :=
  t.siteAt pool i name blank (⟨some 0, instruction⟩, 0)

variable {t pool i name}

theorem sites_eq_filterMap (findings : List Finding) :
    sites findings = findings.filterMap Finding.site? := rfl

theorem sitesIn_eq {m : MethodUnit} {b : Body} (hb : m.body? = some b) :
    t.sitesIn pool m i = b.nodes.zipIdx.filterMap (t.siteAt pool i m.name b) := by
  unfold sitesIn
  rw [hb]
  dsimp only
  rw [sites_eq_filterMap, Body.calls, List.filterMap_filterMap, List.filterMap_filterMap]
  congr 1
  funext ⟨n, position⟩
  unfold siteAt
  dsimp only
  cases n.instruction.call? <;> rfl

theorem sitesIn_none {m : MethodUnit} (hb : m.body? = none) : t.sitesIn pool m i = [] := by
  unfold sitesIn
  rw [hb]

theorem describes_of_siteAt {b : Body} {p : Node × Nat} {s : CallSite}
    (h : t.siteAt pool i name b p = some s) :
    ∃ call, p.1.instruction.call? = some call ∧ s.methodIndex = i ∧
      t.Describes pool ⟨p.2, p.1.origin, call.1, call.2⟩ s := by
  obtain ⟨call, hcall, h⟩ := Option.bind_eq_some_iff.mp h
  obtain ⟨f, hf, hs⟩ := Option.bind_eq_some_iff.mp h
  cases f with
  | site s' =>
      cases hs
      obtain ⟨hindex, -, hdescribes⟩ := describes_of_classify hf
      exact ⟨call, hcall, hindex, hdescribes⟩
  | undeclared => cases hs
  | badDescriptor => cases hs

theorem classify_unplaced (b : Body) (position offset : Nat) (kind : CallKind) (index : UInt16) :
    ((t.classify pool i name b ⟨position, some offset, kind, index⟩).bind Finding.site?).map
        CallSite.unplaced =
      (t.classify pool i name blank ⟨0, some 0, kind, index⟩).bind Finding.site? := by
  unfold classify
  dsimp only
  cases pool.member? index with
  | none => rfl
  | some member =>
      simp only [Option.bind_eq_bind, Option.bind_some]
      split
      · rfl
      split
      · rfl
      split <;> rfl

theorem unplaced_siteAt {b : Body} {p : Node × Nat} (horigin : p.1.origin ≠ none) :
    (t.siteAt pool i name b p).map CallSite.unplaced = t.look pool i name p.1.instruction := by
  obtain ⟨offset, horigin⟩ := Option.ne_none_iff_exists'.mp horigin
  unfold look siteAt
  rw [horigin]
  cases p.1.instruction.call? with
  | none => rfl
  | some call => exact classify_unplaced b p.2 offset call.1 call.2

/-- In a body whose nodes were all loaded. -/
theorem sitesIn_unplaced {m : MethodUnit} {b : Body} (hb : m.body? = some b)
    (hloaded : b.AllLoaded) :
    (t.sitesIn pool m i).map CallSite.unplaced =
      b.instructions.filterMap (t.look pool i m.name) := by
  have hlook : ∀ p ∈ b.nodes.zipIdx, (t.siteAt pool i m.name b p).map CallSite.unplaced =
      t.look pool i m.name p.1.instruction := by
    intro p hp
    exact unplaced_siteAt (hloaded p.1 (List.fst_mem_of_mem_zipIdx hp))
  have hnodes : b.instructions = b.nodes.zipIdx.map fun p => p.1.instruction := by
    have hmap := congrArg (List.map Node.instruction) (List.zipIdx_map_fst 0 b.nodes)
    rw [List.map_map] at hmap
    exact hmap.symm
  rw [sitesIn_eq hb, List.map_filterMap, List.filterMap_congr hlook, hnodes, List.filterMap_map]
  rfl

/-- The look of an instruction depends on its call and on what the pool says of that only. -/
theorem look_congr {q : Pool} {a b : Instruction} (hcall : b.call? = a.call?)
    (hmember : ∀ kind index, a.call? = some (kind, index) → q.member? index = pool.member? index) :
    t.look q i name b = t.look pool i name a := by
  unfold look siteAt
  rw [hcall]
  cases ha : a.call? with
  | none => rfl
  | some call =>
      simp only [Option.bind_some]
      unfold classify
      dsimp only
      rw [hmember call.1 call.2 ha]

theorem look_eq_some {a : Instruction} {s : CallSite} (h : t.look pool i name a = some s) :
    ∃ index descriptor interface, a.call? = some (s.kind, index) ∧
      pool.member? index = some ⟨t.owner, t.name, descriptor, interface⟩ := by
  obtain ⟨⟨kind, index⟩, hcall, -, hdescribes⟩ := describes_of_siteAt h
  obtain ⟨interface, hmember⟩ := hdescribes.member
  rw [hdescribes.owner, hdescribes.name] at hmember
  refine ⟨s.index, s.descriptor, interface, ?_, hmember⟩
  rw [hdescribes.kind, hdescribes.index]
  exact hcall

/-- A site of a class is found at its position. -/
theorem siteAt_of_mem_sites {u : ClassUnit} {s : CallSite} (hs : s ∈ sites (t.scan u))
    {m : MethodUnit} {b : Body} (hm : u.methods[s.methodIndex]? = some m) (hb : m.body? = some b) :
    ∃ n, b.nodes[s.position]? = some n ∧
      t.siteAt u.pool s.methodIndex m.name b (n, s.position) = some s := by
  rw [sites_scan, List.mem_flatMap] at hs
  obtain ⟨⟨m', i⟩, hmem, hs⟩ := hs
  obtain ⟨rfl, -⟩ := mem_sitesIn hs
  rw [List.mem_zipIdx_iff_getElem?, hm, Option.some_inj] at hmem
  dsimp only at hmem hs
  subst hmem
  rw [sitesIn_eq hb] at hs
  obtain ⟨⟨n, position⟩, hp, hs⟩ := List.mem_filterMap.mp hs
  obtain ⟨call, -, -, hdescribes⟩ := describes_of_siteAt hs
  have hposition : s.position = position := hdescribes.position
  subst hposition
  exact ⟨n, List.mk_mem_zipIdx_iff_getElem?.mp hp, hs⟩

theorem mem_sites_of_siteAt {u : ClassUnit} {s : CallSite} {i : Nat} {m : MethodUnit} {b : Body}
    (hm : u.methods[i]? = some m) (hb : m.body? = some b) {p : Node × Nat}
    (hp : p ∈ b.nodes.zipIdx) (hs : t.siteAt u.pool i m.name b p = some s) :
    s ∈ sites (t.scan u) ∧ s.methodIndex = i ∧ s.position = p.2 := by
  obtain ⟨call, -, hindex, hdescribes⟩ := describes_of_siteAt hs
  refine ⟨?_, hindex, hdescribes.position⟩
  rw [sites_scan, List.mem_flatMap]
  refine ⟨(m, i), List.mk_mem_zipIdx_iff_getElem?.mpr hm, ?_⟩
  dsimp only
  rw [sitesIn_eq hb]
  exact List.mem_filterMap.mpr ⟨p, hp, hs⟩

end Target

end Retrofit
