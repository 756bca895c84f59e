import Retrofit.Proofs.Unit.AnyOrder
import Retrofit.Proofs.Unit.Scanning

/-!
# A second scan

Once all the calls are replaced that a recipe covers, a scan of what was written finds the others again,
in their order. What was put in calls methods of the library only. If one of these is the sought method
itself, calls of it are found besides; but as long as it is no static one, no recipe covers them. So
there is nothing left to replace.
-/

namespace Retrofit

/-! ### What recipes call -/

namespace Recipe

/-- The static methods that the recipes call. -/
def factories : List Callee := [asList, emptyList, unmodifiableList]

/-- The methods of growable lists that the recipes call. -/
def listMethods : List Callee := [initEmpty, initSized, add, addAll]

theorem mem_factories_or {r : Recipe} {n : UInt16} {c : Callee} (h : .invoke c ∈ r.steps n) :
    c ∈ factories ∨ c ∈ listMethods := by
  obtain hasking | ⟨hdemand, -⟩ := mem_asking_or h
  · cases r with
    | fixedArity =>
        simp only [asking, List.mem_cons, List.not_mem_nil, or_false, reduceCtorEq, false_or,
          Step.invoke.injEq] at hasking
        rcases hasking with rfl | rfl | rfl <;> decide
    | zeroArity =>
        simp only [asking, List.mem_cons, List.not_mem_nil, or_false, Step.invoke.injEq] at hasking
        rcases hasking with rfl
        decide
    | variableArity =>
        simp only [asking, List.mem_cons, List.not_mem_nil, or_false, reduceCtorEq, false_or,
          Step.invoke.injEq] at hasking
        rcases hasking with rfl | rfl | rfl | rfl <;> decide
  · cases hdemand

theorem not_static_of_mem_listMethods : ∀ c ∈ listMethods, c.kind ≠ .static := by decide

end Recipe

namespace Target

/-- The sought method is the one that a step calls, whatever the overload. -/
def Names (t : Target) (c : Callee) : Prop := t.owner = c.owner ∧ t.name = c.name

/-- The site is like a call of a list method that a recipe makes. -/
def Inserted (t : Target) (s : CallSite) : Prop :=
  ∃ c ∈ Recipe.listMethods, t.Names c ∧ s.kind = c.kind

/-- No recipe covers what a recipe calls. -/
theorem Inserted.rejected {t : Target} {s : CallSite} (h : t.Inserted s) (maxFixedArity : Nat) :
    s.rejected maxFixedArity = true := by
  obtain ⟨c, hc, -, hkind⟩ := h
  apply CallSite.rejected_of_kind
  rw [hkind]
  exact Recipe.not_static_of_mem_listMethods c hc

end Target

/-! ### One method -/

namespace Body

theorem map_instruction_replacementNodes (origin : Option Nat) (is : List Instruction) :
    (replacementNodes origin is).map Node.instruction = is := by
  cases is with
  | nil => rfl
  | cons i is => simp [replacementNodes, Function.comp_def]

theorem map_instruction_replaceNode (new : Nat → Option (List Instruction)) (p : Node × Nat) :
    (replaceNode new p).map Node.instruction = (new p.2).getD [p.1.instruction] := by
  unfold replaceNode
  cases new p.2 with
  | none => rfl
  | some is => exact map_instruction_replacementNodes _ _

end Body

/-- The calls of the method `e'` are those of `e`, and it has nothing but loaded instructions. -/
structure MethodUnit.SameCalls (e e' : MethodUnit) : Prop where
  name_eq : e'.name = e.name
  body : Option.Rel (fun b b' => b'.instructions.map Instruction.call? =
    b.instructions.map Instruction.call? ∧ b'.AllLoaded) e.body? e'.body?

theorem MethodUnit.Substituted.body {new : Nat → Option (List Instruction)} {m m' : MethodUnit}
    (h : m.Substituted new m') :
    Option.Rel (fun b b' => b'.nodes = Body.replaceNodes new b.nodes) m.body? m'.body? := by
  have hcode := h.code
  unfold MethodUnit.body?
  generalize m.code = x, m'.code = x' at hcode
  cases hcode with
  | none => exact .none
  | some hrel =>
      obtain ⟨-, maxStack, maxLocals, hbody⟩ := hrel
      exact .some (congrArg Body.nodes hbody)

theorem Target.filterMap_look_congr {t : Target} {pool : Pool} {i : Nat} {name : String}
    {is js : List Instruction} (h : js.map Instruction.call? = is.map Instruction.call?) :
    js.filterMap (t.look pool i name) = is.filterMap (t.look pool i name) := by
  have hlook : ∀ ls : List Instruction, ls.filterMap (t.look pool i name) =
      (ls.map Instruction.call?).filterMap fun call => call.bind fun c =>
        (t.classify pool i name blank ⟨0, some 0, c.1, c.2⟩).bind Finding.site? := by
    intro ls
    rw [List.filterMap_map]
    rfl
  rw [hlook, hlook, h]

namespace ClassUnit

/-- Exactly the sites that a recipe covers are replaced, each by the compiled sequence of its own
replacement. -/
structure FullySubstituted (u : ClassUnit) (t : Target) (maxFixedArity : Nat)
    (changes : List Change) (v : ClassUnit) : Prop where
  substituted : u.Substituted changes v
  grows : u.pool.Grows (fun _ => True) v.pool
  compiled : ∀ c ∈ changes,
    c.site ∈ Target.sites (t.scan u) ∧ c.Compiled u maxFixedArity v.pool
  complete : ∀ s ∈ Target.sites (t.scan u), s.rejected maxFixedArity = false →
    ∃ c ∈ changes, c.site = s

/-- No call of the class leads, from pool entry to pool entry, past the end of the pool. -/
def CallsEnclosed (u : ClassUnit) : Prop :=
  ∀ m ∈ u.methods, ∀ b, m.body? = some b → ∀ c ∈ b.calls, u.pool.Enclosed c.index

def AllLoaded (u : ClassUnit) : Prop := ∀ m ∈ u.methods, ∀ b, m.body? = some b → b.AllLoaded

/-- The sites of `u` that no recipe covers are found in `w`, in their order, and with them at most
calls that recipes make. -/
def FoundAgain (t : Target) (maxFixedArity : Nat) (u w : ClassUnit) : Prop :=
  Padded t.Inserted
    (((Target.sites (t.scan u)).filter (CallSite.rejected maxFixedArity)).map CallSite.unplaced)
    ((Target.sites (t.scan w)).map CallSite.unplaced)

section

variable {u v : ClassUnit} {t : Target} {maxFixedArity : Nat} {changes : List Change} {q : Pool}

/-- What is found among the instructions of a replacement are calls of the list methods, as long as no
static method of the library is sought. -/
theorem inserted_of_look {c : Change} (hc : c.Compiled u maxFixedArity q)
    (htarget : ∀ callee ∈ Recipe.factories, ¬t.Names callee) {i : Nat} {name : String} :
    ∀ s ∈ c.lowered.filterMap (t.look q i name), t.Inserted s := by
  intro s hs
  obtain ⟨j, hj, hlook⟩ := List.mem_filterMap.mp hs
  obtain ⟨index, descriptor, interface, hcall, hmember⟩ := Target.look_eq_some hlook
  obtain ⟨b, p, p', -, hlower, hgrows⟩ := hc.lowers
  obtain ⟨recipe, n, hrecipe⟩ := Replacement.exists_materialize hc.chosen
  rw [hrecipe] at hlower
  obtain ⟨step, hstep, hlowered⟩ := exists_of_forall₂ (Recipe.loweredTo_of_lower hlower).flip hj
  obtain ⟨callee, rfl, hkind, hmember'⟩ := Step.LoweredTo.grow hgrows hlowered _ _ hcall
  rw [hmember, Option.some_inj, MemberRef.mk.injEq] at hmember'
  have hnames : t.Names callee := ⟨hmember'.1, hmember'.2.1⟩
  obtain hfactory | hlist := Recipe.mem_factories_or hstep
  · exact absurd hnames (htarget callee hfactory)
  · exact ⟨callee, hlist, hnames, hkind⟩

section

variable (h : FullySubstituted u t maxFixedArity changes v) (hloaded : u.AllLoaded)
  (hcalls : u.CallsEnclosed) (hgrows : u.pool.Grows (fun _ => True) q)
  {i : Nat} {m : MethodUnit} {b : Body} (hm : u.methods[i]? = some m) (hb : m.body? = some b)

include h hloaded hcalls hgrows hm hb

/-- Whatever has come of a node: if it was replaced, a recipe covers the site there, and if it was not,
the same is found of it as before. -/
theorem FullySubstituted.found_at {p : Node × Nat} (hp : p ∈ b.nodes.zipIdx) :
    (∃ c ∈ changes, Change.lookup changes i p.2 = some c.lowered ∧
      (t.siteAt u.pool i m.name b p).filter (CallSite.rejected maxFixedArity) = none) ∨
    (Change.lookup changes i p.2 = none ∧ t.look q i m.name p.1.instruction =
      ((t.siteAt u.pool i m.name b p).filter (CallSite.rejected maxFixedArity)).map
        CallSite.unplaced) := by
  obtain ⟨n, position⟩ := p
  have hn : b.nodes[position]? = some n := List.mk_mem_zipIdx_iff_getElem?.mp hp
  cases hlookup : Change.lookup changes i position with
  | some is =>
      obtain ⟨c, hc, rfl, rfl, rfl⟩ := Change.mem_of_lookup hlookup
      obtain ⟨hsite, hcompiled⟩ := h.compiled c hc
      obtain ⟨n', hn', hat⟩ := Target.siteAt_of_mem_sites hsite hm hb
      rw [hn, Option.some_inj] at hn'
      subst hn'
      refine Or.inl ⟨c, hc, rfl, ?_⟩
      rw [hat, Option.filter_some, CallSite.not_rejected_iff.mpr ⟨_, hcompiled.chosen⟩]
      rfl
  | none =>
      refine Or.inr ⟨rfl, ?_⟩
      have hkept : (t.siteAt u.pool i m.name b (n, position)).filter
          (CallSite.rejected maxFixedArity) = t.siteAt u.pool i m.name b (n, position) := by
        cases hat : t.siteAt u.pool i m.name b (n, position) with
        | none => rfl
        | some s =>
            obtain ⟨hmem, hmethod, hposition⟩ := Target.mem_sites_of_siteAt hm hb hp hat
            dsimp only at hposition
            rw [Option.filter_some]
            cases hrejected : s.rejected maxFixedArity with
            | true => rfl
            | false =>
                obtain ⟨c, hc, rfl⟩ := h.complete s hmem hrejected
                have hnot := List.find?_eq_none.mp (Option.map_eq_none_iff.mp hlookup) c hc
                exact absurd (by simp [hmethod, hposition]) hnot
      have horigin : n.origin ≠ none :=
        hloaded m (List.mem_of_getElem? hm) b hb n (List.mem_of_getElem? hn)
      rw [hkept, Target.unplaced_siteAt horigin]
      apply Target.look_congr rfl
      intro kind index hcall
      apply hgrows.member?_of_enclosed
      refine hcalls m (List.mem_of_getElem? hm) b hb ⟨position, n.origin, kind, index⟩ ?_
      refine List.mem_filterMap.mpr ⟨(n, position), hp, ?_⟩
      dsimp only
      rw [hcall]
      rfl

/-- In a method with the calls replaced the rejected sites are found, and with them calls that were put
in. -/
theorem FullySubstituted.found_in (htarget : ∀ callee ∈ Recipe.factories, ¬t.Names callee)
    (hq : v.pool.Grows (fun _ => True) q) {b' : Body}
    (hb' : b'.nodes = Body.replaceNodes (Change.lookup changes i) b.nodes) :
    Padded t.Inserted
      (((t.sitesIn u.pool m i).filter (CallSite.rejected maxFixedArity)).map CallSite.unplaced)
      (b'.instructions.filterMap (t.look q i m.name)) := by
  rw [Target.sitesIn_eq hb, List.filter_filterMap, List.map_filterMap,
    List.filterMap_eq_flatMap_toList, Body.instructions, hb', Body.replaceNodes, List.map_flatMap,
    List.filterMap_flatMap]
  apply Padded.flatMap
  rw [List.forall₂_same]
  intro p hp
  rw [Body.map_instruction_replaceNode]
  rcases h.found_at hloaded hcalls hgrows hm hb hp with ⟨c, hc, hlookup, hat⟩ | ⟨hlookup, hlook⟩
  · rw [hlookup, hat]
    exact .of_forall (inserted_of_look ((h.compiled c hc).2.grow hq) htarget)
  · rw [hlookup, ← hlook, Option.getD_none]
    cases hsite : t.look q i m.name p.1.instruction with
    | none =>
        rw [List.filterMap_cons_none hsite]
        exact .refl _ []
    | some s =>
        rw [List.filterMap_cons_some hsite]
        exact .refl _ [s]

end

/-! ### The whole class -/

theorem Substituted.length_methods (h : u.Substituted changes v) :
    v.methods.length = u.methods.length := by
  rcases Nat.lt_trichotomy u.methods.length v.methods.length with hlt | heq | hlt
  · have hmethod := h.methods u.methods.length
    rw [List.getElem?_eq_none (Nat.le_refl _), List.getElem?_eq_getElem hlt] at hmethod
    cases hmethod
  · exact heq.symm
  · have hmethod := h.methods v.methods.length
    rw [List.getElem?_eq_none (Nat.le_refl _), List.getElem?_eq_getElem hlt] at hmethod
    cases hmethod

section

variable {w : ClassUnit} (h : FullySubstituted u t maxFixedArity changes v)
  (hloaded : u.AllLoaded) (hcalls : u.CallsEnclosed)
  (htarget : ∀ callee ∈ Recipe.factories, ¬t.Names callee)
  (hgrows : v.pool.Grows (fun _ => True) w.pool)

include h hloaded hcalls htarget hgrows

theorem FullySubstituted.found_in_method {i : Nat} {m e e' : MethodUnit}
    (hm : u.methods[i]? = some m) (he : m.Substituted (Change.lookup changes i) e)
    (hsame : e.SameCalls e') :
    Padded t.Inserted
      (((t.sitesIn u.pool m i).filter (CallSite.rejected maxFixedArity)).map CallSite.unplaced)
      ((t.sitesIn w.pool e' i).map CallSite.unplaced) := by
  have hreplaced := he.body
  obtain ⟨hname, hbody⟩ := hsame
  cases hb : m.body? with
  | none =>
      rw [hb] at hreplaced
      generalize e.body? = x at hreplaced hbody
      cases hreplaced
      generalize hb' : e'.body? = x' at hbody
      cases hbody
      rw [Target.sitesIn_none hb, Target.sitesIn_none hb']
      exact .nil
  | some b =>
      rw [hb] at hreplaced
      generalize e.body? = x at hreplaced hbody
      obtain ⟨hnodes⟩ := hreplaced
      generalize hb' : e'.body? = x' at hbody
      obtain ⟨hcall, hall⟩ := hbody
      rw [Target.sitesIn_unplaced hb' hall, Target.filterMap_look_congr hcall, hname, he.name_eq]
      exact h.found_in hloaded hcalls (h.grows.trans hgrows) hm hb htarget hgrows hnodes

/-- The rejected sites are found again in a class with the same calls as the one with the calls
replaced. -/
theorem FullySubstituted.rescan (hsame : List.Forall₂ MethodUnit.SameCalls v.methods w.methods) :
    FoundAgain t maxFixedArity u w := by
  rw [FoundAgain, Target.sites_scan, Target.sites_scan, List.filter_flatMap, List.map_flatMap,
    List.map_flatMap]
  apply Padded.flatMap
  rw [List.forall₂_iff_get] at hsame
  obtain ⟨hlength, hget⟩ := hsame
  have hlen : u.methods.length = w.methods.length := by
    rw [← hlength, h.substituted.length_methods]
  have hall : List.Forall₂ (fun _ _ => True) u.methods w.methods :=
    List.forall₂_iff_get.mpr ⟨hlen, fun _ _ _ => trivial⟩
  refine (forall₂_zipIdx hall).imp ?_
  rintro ⟨m, i⟩ ⟨e', i'⟩ ⟨hi, hm, he', -⟩
  dsimp only at hi hm he' ⊢
  subst hi
  obtain ⟨hlt, rfl⟩ := List.getElem?_eq_some_iff.mp he'
  have hmethod := h.substituted.methods i'
  rw [hm, List.getElem?_eq_getElem (hlength ▸ hlt)] at hmethod
  obtain ⟨hsubstituted⟩ := hmethod
  exact h.found_in_method hloaded hcalls htarget hgrows hm hsubstituted (hget i' _ hlt)

end

end

end ClassUnit

end Retrofit
