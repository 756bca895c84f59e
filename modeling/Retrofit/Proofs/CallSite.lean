import Retrofit.CallSite

/-!
# Scanned call sites

A scan finds call sites in order, the methods of the class one after the other and each method from
its front to its back. So no two of them are at the same place, and each is a loaded call that names
the sought method.
-/

namespace Retrofit

/-- The first site comes before the second one in the class. -/
def CallSite.Before (s t : CallSite) : Prop :=
  s.methodIndex < t.methodIndex ∨ (s.methodIndex = t.methodIndex ∧ s.position < t.position)

theorem zipIdx_increasing {α : Type} (xs : List α) :
    xs.zipIdx.Pairwise fun x y => x.2 < y.2 := by
  have h : (xs.zipIdx.map Prod.snd).Pairwise (· < ·) := by
    rw [List.zipIdx_map_snd]
    exact List.pairwise_lt_range'
  exact List.pairwise_map.mp h

namespace Body

theorem mem_calls {b : Body} {c : Call} (h : c ∈ b.calls) :
    ∃ n, b.nodes[c.position]? = some n ∧ n.origin = c.origin ∧
      n.instruction.call? = some (c.kind, c.index) := by
  unfold calls at h
  obtain ⟨⟨n, position⟩, hmem, hcall⟩ := List.mem_filterMap.mp h
  obtain ⟨⟨kind, index⟩, hn, rfl⟩ := Option.map_eq_some_iff.mp hcall
  exact ⟨n, List.mem_zipIdx_iff_getElem?.mp hmem, rfl, hn⟩

theorem calls_increasing (b : Body) : b.calls.Pairwise fun c d => c.position < d.position := by
  unfold calls
  rw [List.pairwise_filterMap]
  refine (zipIdx_increasing b.nodes).imp ?_
  rintro ⟨n, i⟩ ⟨m, j⟩ hlt c hc d hd
  obtain ⟨_, -, rfl⟩ := Option.map_eq_some_iff.mp hc
  obtain ⟨_, -, rfl⟩ := Option.map_eq_some_iff.mp hd
  exact hlt

end Body

namespace Target

/-- What the site found for a call says about it. -/
structure Describes (t : Target) (pool : Pool) (c : Call) (s : CallSite) : Prop where
  position : s.position = c.position
  offset : c.origin = some s.offset
  kind : s.kind = c.kind
  index : s.index = c.index
  owner : s.owner = t.owner
  name : s.name = t.name
  member : ∃ interface, pool.member? s.index = some ⟨s.owner, s.name, s.descriptor, interface⟩
  type : MethodType.parse? s.descriptor = some s.type

variable {t : Target}

theorem describes_of_classify {pool : Pool} {i : Nat} {name : String} {b : Body} {c : Call}
    {s : CallSite} (h : t.classify pool i name b c = some (.site s)) :
    s.methodIndex = i ∧ s.methodName = name ∧ t.Describes pool c s := by
  unfold classify at h
  simp only [Option.bind_eq_bind, Option.bind_eq_some_iff] at h
  obtain ⟨offset, hoffset, member, hmember, h⟩ := h
  split at h
  · cases h
  · rename_i hname
    split at h
    · cases h
    · split at h
      · cases h
      · rename_i type htype
        cases h
        obtain ⟨howner, hname⟩ := not_or.mp hname
        exact ⟨rfl, rfl, rfl, hoffset, rfl, rfl, Decidable.not_not.mp howner,
          Decidable.not_not.mp hname, ⟨member.interface, hmember⟩, htype⟩

/-- The sites found in one method. -/
def sitesIn (t : Target) (pool : Pool) (m : MethodUnit) (i : Nat) : List CallSite :=
  match m.body? with
  | none => []
  | some b => sites (b.calls.filterMap (t.classify pool i m.name b))

theorem sites_scan (t : Target) (u : ClassUnit) :
    sites (t.scan u) = u.methods.zipIdx.flatMap fun (m, i) => t.sitesIn u.pool m i := by
  unfold scan sites
  rw [List.filterMap_flatMap]
  congr 1
  funext ⟨m, i⟩
  dsimp only [sitesIn, sites]
  cases m.body? <;> rfl

theorem mem_sites {findings : List Finding} {s : CallSite} :
    s ∈ sites findings ↔ .site s ∈ findings := by
  unfold sites
  rw [List.mem_filterMap]
  constructor
  · rintro ⟨f, hf, h⟩
    split at h
    · cases h
      exact hf
    · cases h
  · intro h
    exact ⟨_, h, rfl⟩

theorem mem_sitesIn {pool : Pool} {m : MethodUnit} {i : Nat} {s : CallSite}
    (h : s ∈ t.sitesIn pool m i) :
    s.methodIndex = i ∧ s.methodName = m.name ∧
      ∃ b, m.body? = some b ∧ ∃ c ∈ b.calls, t.Describes pool c s := by
  unfold sitesIn at h
  split at h
  · cases h
  · rename_i b hb
    obtain ⟨c, hc, hs⟩ := List.mem_filterMap.mp (mem_sites.mp h)
    obtain ⟨hindex, hname, hdescribes⟩ := describes_of_classify hs
    exact ⟨hindex, hname, b, hb, c, hc, hdescribes⟩

theorem sitesIn_increasing (t : Target) (pool : Pool) (m : MethodUnit) (i : Nat) :
    (t.sitesIn pool m i).Pairwise CallSite.Before := by
  unfold sitesIn
  split
  · exact .nil
  · rename_i b hb
    unfold sites
    rw [List.pairwise_filterMap, List.pairwise_filterMap]
    refine b.calls_increasing.imp ?_
    intro c d hlt f hf g hg s hs r hr
    obtain rfl : f = .site s := by
      split at hs <;> cases hs
      rfl
    obtain rfl : g = .site r := by
      split at hr <;> cases hr
      rfl
    obtain ⟨hs, -, hc⟩ := describes_of_classify hf
    obtain ⟨hr, -, hd⟩ := describes_of_classify hg
    refine Or.inr ⟨hs.trans hr.symm, ?_⟩
    rw [hc.position, hd.position]
    exact hlt

/-- Sites are found in the order of the class. -/
theorem sites_increasing (t : Target) (u : ClassUnit) :
    (sites (t.scan u)).Pairwise CallSite.Before := by
  rw [sites_scan, List.pairwise_flatMap]
  refine ⟨fun ⟨m, i⟩ _ => t.sitesIn_increasing u.pool m i, ?_⟩
  refine (zipIdx_increasing u.methods).imp ?_
  rintro ⟨m, i⟩ ⟨n, j⟩ hlt s hs r hr
  obtain ⟨rfl, -⟩ := mem_sitesIn hs
  obtain ⟨rfl, -⟩ := mem_sitesIn hr
  exact Or.inl hlt

theorem describes_of_mem_sites {u : ClassUnit} {s : CallSite} (h : s ∈ sites (t.scan u)) :
    ∃ c, t.Describes u.pool c s := by
  rw [sites_scan, List.mem_flatMap] at h
  obtain ⟨⟨m, i⟩, -, hs⟩ := h
  obtain ⟨-, -, b, -, c, -, hdescribes⟩ := mem_sitesIn hs
  exact ⟨c, hdescribes⟩

/-- A site is a loaded call in the method and at the position that it says. -/
theorem found_of_mem_sites {u : ClassUnit} {s : CallSite} (h : s ∈ sites (t.scan u)) :
    ∃ m b n, u.methods[s.methodIndex]? = some m ∧ s.methodName = m.name ∧ m.body? = some b ∧
      b.nodes[s.position]? = some n ∧ n.origin = some s.offset ∧
      n.instruction.call? = some (s.kind, s.index) := by
  rw [sites_scan, List.mem_flatMap] at h
  obtain ⟨⟨m, i⟩, hmem, hs⟩ := h
  obtain ⟨rfl, hname, b, hb, c, hc, hdescribes⟩ := mem_sitesIn hs
  obtain ⟨n, hn, horigin, hcall⟩ := Body.mem_calls hc
  refine ⟨m, b, n, List.mem_zipIdx_iff_getElem?.mp hmem, hname, hb, ?_, ?_, ?_⟩
  · rw [hdescribes.position]
    exact hn
  · rw [horigin, hdescribes.offset]
  · rw [hdescribes.kind, hdescribes.index]
    exact hcall

end Target

end Retrofit
