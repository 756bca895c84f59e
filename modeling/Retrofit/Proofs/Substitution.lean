import Retrofit.Proofs.Body.Splicing
import Retrofit.Proofs.CallSite
import Retrofit.Proofs.Patch
import Retrofit.Substitution

/-!
# All calls at once

The calls of a class are replaced one by one, the last one first, while nodes move and the pool
grows. What comes out is the loaded class with all of them replaced at once, each at the position at
which it was found. The invariant of the loop is the same statement for the sites already done: they
all lie behind the next one, so up to the next one its method is still as it was loaded.
-/

namespace Retrofit

/-- A call site with its replacement and the instructions that this was lowered to. -/
structure Change where
  site : CallSite
  replacement : Replacement
  lowered : List Instruction

namespace Change

/-- What is reported of a change. -/
def record (c : Change) : Substitution := .ofSite c.site c.replacement

/-- The new instructions for the node at position `k` of the method `i`, if it is replaced. -/
def lookup (changes : List Change) (i k : Nat) : Option (List Instruction) :=
  (changes.find? fun c => c.site.methodIndex == i && c.site.position == k).map Change.lowered

theorem lookup_cons (c : Change) (changes : List Change) (i k : Nat) :
    lookup (c :: changes) i k =
      if c.site.methodIndex = i ∧ c.site.position = k then some c.lowered
      else lookup changes i k := by
  unfold lookup
  by_cases h : c.site.methodIndex = i ∧ c.site.position = k
  · rw [List.find?_cons_of_pos (by simpa using h), if_pos h]
    rfl
  · rw [List.find?_cons_of_neg (by simpa using h), if_neg h]

theorem lookup_eq_none {changes : List Change} {i k : Nat}
    (h : ∀ c ∈ changes, ¬(c.site.methodIndex = i ∧ c.site.position = k)) :
    lookup changes i k = none := by
  unfold lookup
  rw [Option.map_eq_none_iff, List.find?_eq_none]
  intro c hc
  simpa using h c hc

end Change

/-! ### Replacing nodes at once -/

namespace Body

/-- What stands for the node at position `p.2`, if `new` says what to replace it with. -/
def replaceNode (new : Nat → Option (List Instruction)) (p : Node × Nat) : List Node :=
  match new p.2 with
  | some is => replacementNodes p.1.origin is
  | none => [p.1]

/-- The nodes with those replaced for which there are new instructions, all at once. -/
def replaceNodes (new : Nat → Option (List Instruction)) (nodes : List Node) : List Node :=
  nodes.zipIdx.flatMap (replaceNode new)

theorem flatMap_replaceNode_eq {new : Nat → Option (List Instruction)} {ps : List (Node × Nat)}
    (h : ∀ p ∈ ps, new p.2 = none) : ps.flatMap (replaceNode new) = ps.map Prod.fst := by
  induction ps with
  | nil => rfl
  | cons p ps ih =>
      obtain ⟨hp, hps⟩ := List.forall_mem_cons.mp h
      rw [List.flatMap_cons, ih hps, replaceNode, hp]
      rfl

theorem replaceNodes_none (nodes : List Node) : replaceNodes (fun _ => none) nodes = nodes := by
  rw [replaceNodes, flatMap_replaceNode_eq fun _ _ => rfl, List.zipIdx_map_fst]

/-- The nodes before position `k`, the one there and those behind it. -/
theorem replaceNodes_eq_append (new : Nat → Option (List Instruction)) {nodes : List Node} {k : Nat}
    {n : Node} (hn : nodes[k]? = some n) :
    replaceNodes new nodes = replaceNodes new (nodes.take k) ++ (replaceNode new (n, k) ++
      ((nodes.drop (k + 1)).zipIdx (k + 1)).flatMap (replaceNode new)) := by
  obtain ⟨hlt, rfl⟩ := List.getElem?_eq_some_iff.mp hn
  have hsplit : nodes = nodes.take k ++ nodes[k] :: nodes.drop (k + 1) := by
    rw [List.getElem_cons_drop, List.take_append_drop]
  have hlen : (nodes.take k).length = k := List.length_take_of_le (Nat.le_of_lt hlt)
  rw [replaceNodes]
  nth_rewrite 1 [hsplit]
  rw [List.zipIdx_append, List.flatMap_append, hlen, Nat.zero_add, List.zipIdx_cons,
    List.flatMap_cons, replaceNodes]

/-- The node at position `k` is still there: it was not replaced, and what was replaced before it has
not moved it. -/
structure InPlace (new : Nat → Option (List Instruction)) (nodes : List Node) (k : Nat) : Prop where
  kept : new k = none
  length_eq : (replaceNodes new (nodes.take k)).length = k

theorem inPlace_of_none {new : Nat → Option (List Instruction)} {nodes : List Node} {k : Nat}
    (hlt : k < nodes.length) (hnew : ∀ j, j ≤ k → new j = none) : InPlace new nodes k := by
  refine ⟨hnew k (Nat.le_refl k), ?_⟩
  rw [replaceNodes, flatMap_replaceNode_eq, List.zipIdx_map_fst,
    List.length_take_of_le (Nat.le_of_lt hlt)]
  intro p hp
  apply hnew
  have hp := List.snd_lt_of_mem_zipIdx hp
  rw [List.length_take_of_le (Nat.le_of_lt hlt)] at hp
  omega

/-- Splicing at a position whose node is in place replaces this node too. -/
theorem splice_replaceNodes {b b' : Body} {new : Nat → Option (List Instruction)} {k : Nat} {n : Node}
    (hnodes : b'.nodes = replaceNodes new b.nodes) (hn : b.nodes[k]? = some n)
    (hplace : InPlace new b.nodes k) (is : List Instruction) :
    b'.nodes[k]? = some n ∧
      (b'.splice k is).nodes = replaceNodes (fun j => if k = j then some is else new j) b.nodes := by
  obtain ⟨hkept, hlen⟩ := hplace
  have hnode : replaceNode new (n, k) = [n] := by rw [replaceNode, hkept]
  have hb' := replaceNodes_eq_append new hn
  rw [← hnodes, hnode, List.singleton_append] at hb'
  have hn' : b'.nodes[k]? = some n := by
    rw [hb', List.getElem?_append_right (Nat.le_of_eq hlen), hlen, Nat.sub_self]
    rfl
  refine ⟨hn', ?_⟩
  have hone : replaceNode (fun j => if k = j then some is else new j) (n, k) =
      replacementNodes n.origin is := by
    simp [replaceNode]
  have hother : ∀ p : Node × Nat, k ≠ p.2 →
      replaceNode new p = replaceNode (fun j => if k = j then some is else new j) p := by
    intro p hne
    rw [replaceNode, replaceNode, if_neg hne]
  have hfront : ∀ p ∈ (b.nodes.take k).zipIdx,
      replaceNode new p = replaceNode (fun j => if k = j then some is else new j) p := by
    intro p hp
    have hlt := List.snd_lt_of_mem_zipIdx hp
    rw [List.length_take] at hlt
    exact hother p (by omega)
  have hback : ∀ p ∈ (b.nodes.drop (k + 1)).zipIdx (k + 1),
      replaceNode new p = replaceNode (fun j => if k = j then some is else new j) p := by
    intro p hp
    have hle := List.le_snd_of_mem_zipIdx hp
    exact hother p (by omega)
  obtain ⟨hlt', hget⟩ := List.getElem?_eq_some_iff.mp hn'
  rw [splice_nodes hlt', hget, hb', List.take_left' hlen, List.drop_append,
    List.drop_of_length_le (by omega), hlen, Nat.add_sub_cancel_left,
    replaceNodes_eq_append _ hn, hone, ← List.flatMap_congr hback]
  rw [replaceNodes, List.flatMap_congr hfront]
  rfl

end Body

/-! ### The loop -/

/-- The method `m` with the nodes replaced for which there are new instructions. -/
structure MethodUnit.Substituted (new : Nat → Option (List Instruction)) (m m' : MethodUnit) :
    Prop where
  name_eq : m'.name = m.name
  descriptor_eq : m'.descriptor = m.descriptor
  access_eq : m'.access = m.access
  code : Option.Rel (fun c c' => c'.1 = c.1 ∧ ∃ maxStack maxLocals,
    c'.2 = { c.2 with nodes := Body.replaceNodes new c.2.nodes, maxStack, maxLocals }) m.code m'.code
  untouched : (∀ k, new k = none) → m' = m

/-- The class `u` with all the changes made at once: the same file but for the pool, and the same
methods but for the replaced nodes and the limits. -/
structure ClassUnit.Substituted (changes : List Change) (u v : ClassUnit) : Prop where
  name_eq : v.name = u.name
  file_eq : v.file = { u.file with pool := v.pool }
  methods : ∀ i, Option.Rel (MethodUnit.Substituted (Change.lookup changes i)) u.methods[i]?
    v.methods[i]?

/-- The changes for those of the sites that have a replacement, in their order. The last site's
replacement is lowered first, with the pool of the class `u`, and leaves its pool to the one before
it. -/
inductive Lowered (u : ClassUnit) (maxFixedArity : Nat) : List CallSite → Pool → List Change → Prop
  | nil : Lowered u maxFixedArity [] u.pool []
  | leftAlone {s : CallSite} {sites : List CallSite} {pool : Pool} {changes : List Change}
      {e : Unsupported} (hs : s.replacement maxFixedArity = .error e)
      (rest : Lowered u maxFixedArity sites pool changes) :
      Lowered u maxFixedArity (s :: sites) pool changes
  | replaced {s : CallSite} {sites : List CallSite} {pool pool' : Pool} {changes : List Change}
      {r : Replacement} {b : Body} {is : List Instruction}
      (hs : s.replacement maxFixedArity = .ok r)
      (hb : u.methods[s.methodIndex]?.bind MethodUnit.body? = some b)
      (lower : r.lower pool b.scratchBase = (pool', .ok is))
      (rest : Lowered u maxFixedArity sites pool changes) :
      Lowered u maxFixedArity (s :: sites) pool' (⟨s, r, is⟩ :: changes)

/-- What an attempt to replace the calls at the sites comes to: all of those that have a replacement
are replaced at once and reported in order, or one of the replacements does not fit. -/
inductive AllAtOnce (u : ClassUnit) (maxFixedArity : Nat) (sites : List CallSite) : Attempt → Prop
  | done {v : ClassUnit} {changes : List Change} {events : List Event}
      (lowered : Lowered u maxFixedArity sites v.pool changes)
      (substituted : u.Substituted changes v) :
      AllAtOnce u maxFixedArity sites ⟨v, .ok (changes.map Change.record), events⟩
  | failed {v : ClassUnit} {s : CallSite} {reason : PatchError} {events : List Event}
      (hs : s ∈ sites) :
      AllAtOnce u maxFixedArity sites
        ⟨v, .error (.malformedReplacement u.dottedName s.methodName reason), events⟩

/-- It does not matter what is told. -/
theorem AllAtOnce.tell {u : ClassUnit} {maxFixedArity : Nat} {sites : List CallSite}
    {attempt : Attempt} (h : AllAtOnce u maxFixedArity sites attempt) (events : List Event) :
    AllAtOnce u maxFixedArity sites { attempt with events } := by
  cases h with
  | done hlowered hsubstituted => exact .done hlowered hsubstituted
  | failed hs => exact .failed hs

theorem Lowered.mem_sites {u : ClassUnit} {maxFixedArity : Nat} {sites : List CallSite} {pool : Pool}
    {changes : List Change} (h : Lowered u maxFixedArity sites pool changes) :
    ∀ c ∈ changes, c.site ∈ sites := by
  induction h with
  | nil => simp
  | leftAlone _ _ ih => exact fun c hc => List.mem_cons_of_mem _ (ih c hc)
  | replaced _ _ _ _ ih =>
      intro c hc
      obtain rfl | hc := List.mem_cons.mp hc
      · exact List.mem_cons_self
      · exact List.mem_cons_of_mem _ (ih c hc)

/-- The changes are those of the sites that have a replacement, in order and each with its own. -/
theorem Lowered.map_eq {u : ClassUnit} {maxFixedArity : Nat} {sites : List CallSite} {pool : Pool}
    {changes : List Change} (h : Lowered u maxFixedArity sites pool changes) :
    changes.map (fun c => (c.site, c.replacement)) =
      sites.filterMap fun s => (s.replacement maxFixedArity).toOption.map fun r => (s, r) := by
  induction h with
  | nil => rfl
  | leftAlone hs _ ih =>
      rw [ih, List.filterMap_cons_none]
      rw [hs]
      rfl
  | replaced hs _ _ _ ih =>
      rw [List.map_cons, ih, List.filterMap_cons_some]
      rw [hs]
      rfl

theorem MethodUnit.substituted_refl (m : MethodUnit) :
    MethodUnit.Substituted (fun _ => none) m m := by
  refine ⟨rfl, rfl, rfl, ?_, fun _ => rfl⟩
  cases m.code with
  | none => exact .none
  | some c => exact .some ⟨rfl, c.2.maxStack, c.2.maxLocals, by rw [Body.replaceNodes_none]⟩

/-- A method gets the body in which one node more is replaced. -/
theorem MethodUnit.Substituted.withBody {new : Nat → Option (List Instruction)} {m m' : MethodUnit}
    (h : m.Substituted new m') {b b' : Body} (hb : m.body? = some b) {k : Nat}
    {is : List Instruction} (hb' : ∃ maxStack maxLocals, b' = { b with
      nodes := Body.replaceNodes (fun j => if k = j then some is else new j) b.nodes,
      maxStack, maxLocals }) :
    m.Substituted (fun j => if k = j then some is else new j) (m'.withBody b') := by
  refine ⟨h.name_eq, h.descriptor_eq, h.access_eq, ?_, ?_⟩
  · obtain ⟨⟨i, b⟩, hcode, rfl⟩ := Option.map_eq_some_iff.mp hb
    have hrel := h.code
    rw [hcode] at hrel
    rw [hcode, MethodUnit.withBody]
    generalize m'.code = x at hrel
    obtain ⟨hi, -⟩ := hrel
    exact .some ⟨hi, hb'⟩
  · intro hnone
    have hk := hnone k
    rw [if_pos rfl] at hk
    cases hk

theorem ClassUnit.substituted_refl (u : ClassUnit) : u.Substituted [] u := by
  refine ⟨rfl, rfl, fun i => ?_⟩
  cases u.methods[i]? with
  | none => exact .none
  | some m => exact .some (MethodUnit.substituted_refl m)

namespace ClassUnit

section

variable {u v : ClassUnit} {changes : List Change} {s : CallSite} {m : MethodUnit} {b : Body} {n : Node}

/-- As long as only calls behind it were replaced, a site's call is where it was found. -/
theorem inPlace_of_before (hbefore : ∀ c ∈ changes, s.Before c.site)
    (hn : b.nodes[s.position]? = some n) :
    Body.InPlace (Change.lookup changes s.methodIndex) b.nodes s.position := by
  refine Body.inPlace_of_none (List.getElem?_eq_some_iff.mp hn).1 fun j hj => ?_
  apply Change.lookup_eq_none
  rintro c hc ⟨hindex, hposition⟩
  have hlt := hbefore c hc
  unfold CallSite.Before at hlt
  omega

/-- The body of a loaded method after the changes so far. -/
theorem Substituted.exists_body (h : u.Substituted changes v)
    (hm : u.methods[s.methodIndex]? = some m) (hb : m.body? = some b) :
    ∃ m' b' maxStack maxLocals, v.methods[s.methodIndex]? = some m' ∧ m'.body? = some b' ∧
      b' = { b with nodes := Body.replaceNodes (Change.lookup changes s.methodIndex) b.nodes,
                    maxStack, maxLocals } ∧
      m.Substituted (Change.lookup changes s.methodIndex) m' := by
  have hmethod := h.methods s.methodIndex
  rw [hm] at hmethod
  generalize hv : v.methods[s.methodIndex]? = x at hmethod
  obtain ⟨hsub⟩ := hmethod
  rename_i m'
  obtain ⟨⟨i, b⟩, hcode, rfl⟩ := Option.map_eq_some_iff.mp hb
  have hrel := hsub.code
  rw [hcode] at hrel
  generalize hcode' : m'.code = x at hrel
  obtain ⟨-, maxStack, maxLocals, hbody⟩ := hrel
  refine ⟨m', _, maxStack, maxLocals, rfl, ?_, hbody, hsub⟩
  rw [MethodUnit.body?, hcode']
  rfl

/-- A call that is in place is found there. -/
theorem Substituted.bodyOf?_eq (h : u.Substituted changes v)
    (hm : u.methods[s.methodIndex]? = some m) (hb : m.body? = some b)
    (hn : b.nodes[s.position]? = some n)
    (hplace : Body.InPlace (Change.lookup changes s.methodIndex) b.nodes s.position)
    (horigin : n.origin = some s.offset) (hcall : n.instruction.call? = some (s.kind, s.index)) :
    ∃ b', v.bodyOf? s = some b' := by
  obtain ⟨m', b', maxStack, maxLocals, hm', hb', hbody, -⟩ := h.exists_body hm hb
  have hnodes : b'.nodes = _ := congrArg Body.nodes hbody
  have hn' := (Body.splice_replaceNodes hnodes hn hplace []).1
  refine ⟨b', bodyOf?_eq_some_iff.mpr ⟨m', hm', hb', Body.holds_iff.mpr ⟨n, hn', horigin, ?_⟩⟩⟩
  rw [hcall]
  rfl

/-- A patch of a call that is found fails on account of its replacement. -/
theorem Substituted.ofPatch_eq (h : u.Substituted changes v) {v' : ClassUnit} {b' : Body}
    {r : Replacement} {e : PatchError} (hfound : v.bodyOf? s = some b')
    (hpatch : v.patch s r = (v', .error e)) :
    Failure.ofPatch v' s e = .malformedReplacement u.dottedName s.methodName e := by
  have hdotted : v'.dottedName = u.dottedName := by
    rw [eq_withPool_of_patch hpatch, dottedName, dottedName, ← h.name_eq]
    rfl
  rw [← hdotted]
  cases e with
  | stale offset => exact absurd rfl (ne_stale_of_patch hfound hpatch offset)
  | _ => rfl

/-- A patch makes one change more, in front of the others. -/
theorem Substituted.patch (h : u.Substituted changes v)
    (hm : u.methods[s.methodIndex]? = some m) (hb : m.body? = some b)
    (hn : b.nodes[s.position]? = some n)
    (hplace : Body.InPlace (Change.lookup changes s.methodIndex) b.nodes s.position)
    {v' : ClassUnit} {b' : Body} {r : Replacement} {is : List Instruction}
    (hpatch : v.Patches s r b' is v') :
    b'.scratchBase = b.scratchBase ∧ u.Substituted (⟨s, r, is⟩ :: changes) v' := by
  obtain ⟨m', b'', maxStack, maxLocals, hm', hb', hbody, hsub⟩ := h.exists_body hm hb
  obtain rfl := hpatch.body_eq hm' hb'
  refine ⟨by rw [hbody], ?_⟩
  obtain ⟨profile, spliced, -, hspliced, hv'⟩ := hpatch.installs
  obtain ⟨-, -, hspliced, -⟩ := Body.patch_eq_ok hspliced
  have hnodes : b'.nodes = _ := congrArg Body.nodes hbody
  have hnodes' := (Body.splice_replaceNodes hnodes hn hplace is).2
  refine ⟨?_, ?_, fun i => ?_⟩
  · rw [hv']
    exact h.name_eq
  · have hfile : v'.file = { v.file with pool := v'.pool } := by
      rw [hv']
      rfl
    rw [hfile, h.file_eq]
  · have hmethods : v'.methods = v.methods.modify s.methodIndex (·.withBody spliced) := by
      rw [hv']
      rfl
    rw [hmethods, List.getElem?_modify]
    by_cases hi : s.methodIndex = i
    · subst hi
      have hlookup : Change.lookup (⟨s, r, is⟩ :: changes) s.methodIndex =
          fun j => if s.position = j then some is else
            Change.lookup changes s.methodIndex j := by
        funext k
        rw [Change.lookup_cons]
        simp
      rw [hm, hm', hlookup, Option.map_eq_map, Option.map_some, if_pos rfl]
      refine .some (hsub.withBody hb ⟨spliced.maxStack, spliced.maxLocals, ?_⟩)
      rw [hspliced, hnodes', hbody]
    · have hlookup : Change.lookup (⟨s, r, is⟩ :: changes) i = Change.lookup changes i := by
        funext k
        rw [Change.lookup_cons, if_neg fun hk => hi hk.1]
      simpa [hi, hlookup] using h.methods i

end

/-- The sites that are done are a tail of all sites, and for them the class is what it would be if
their calls had been replaced at once; so it is for all sites in the end. -/
theorem substituteSites_allAtOnce {u v : ClassUnit} {maxFixedArity : Nat}
    {sites todo rest : List CallSite} {changes : List Change}
    (hfound : ∀ s ∈ sites, ∃ m b n, u.methods[s.methodIndex]? = some m ∧ s.methodName = m.name ∧
      m.body? = some b ∧ b.nodes[s.position]? = some n ∧ n.origin = some s.offset ∧
      n.instruction.call? = some (s.kind, s.index))
    (horder : sites.Pairwise CallSite.Before) (hsites : sites = todo.reverse ++ rest)
    (hlowered : Lowered u maxFixedArity rest v.pool changes) (h : u.Substituted changes v)
    (told : List Event) :
    AllAtOnce u maxFixedArity sites
      (v.substituteSites maxFixedArity (changes.map Change.record) told todo) := by
  induction todo generalizing v rest changes told with
  | nil =>
      rw [List.reverse_nil, List.nil_append] at hsites
      subst hsites
      exact .done hlowered h
  | cons s todo ih =>
      rw [List.reverse_cons, List.append_assoc, List.singleton_append] at hsites
      have hs : s ∈ sites := by
        rw [hsites]
        exact List.mem_append_right _ List.mem_cons_self
      have hbefore : ∀ c ∈ changes, s.Before c.site := by
        intro c hc
        rw [hsites] at horder
        have htail := (List.pairwise_append.mp horder).2.1
        exact List.rel_of_pairwise_cons htail (hlowered.mem_sites c hc)
      obtain ⟨m, b, n, hm, hname, hb, hn, horigin, hcall⟩ := hfound s hs
      have hplace := inPlace_of_before hbefore hn
      rw [substituteSites]
      split
      · rename_i e he
        exact ih hsites (.leftAlone he hlowered) h _
      · rename_i r hr
        dsimp only
        split
        · rename_i v' e hpatch
          obtain ⟨b', hbody⟩ := h.bodyOf?_eq hm hb hn hplace horigin hcall
          rw [h.ofPatch_eq hbody hpatch]
          exact .failed hs
        · rename_i v' hpatch
          obtain ⟨b', is, hpatches⟩ := patches_of_patch hpatch
          obtain ⟨hscratch, hnext⟩ := h.patch hm hb hn hplace hpatches
          obtain ⟨pool, hlower, hpool⟩ := hpatches.lowers
          have hbind : u.methods[s.methodIndex]?.bind MethodUnit.body? = some b := by
            rw [hm]
            exact hb
          rw [hscratch, ← hpool] at hlower
          exact ih hsites (.replaced hr hbind hlower hlowered) hnext _

theorem substituteSites_scan (u : ClassUnit) (target : Target) (maxFixedArity : Nat) :
    AllAtOnce u maxFixedArity (Target.sites (target.scan u))
      (u.substituteSites maxFixedArity [] [] (Target.sites (target.scan u)).reverse) := by
  have hnil : Lowered u maxFixedArity [] u.pool [] := .nil
  exact substituteSites_allAtOnce (fun s hs => Target.found_of_mem_sites hs)
    (target.sites_increasing u) (by rw [List.reverse_reverse, List.append_nil]) hnil
    u.substituted_refl []

/-- Replacing the calls of a class one by one is replacing all of them at once, and no call goes
stale on the way. -/
theorem substitute_allAtOnce (u : ClassUnit) (target : Target) (maxFixedArity : Nat) :
    AllAtOnce u maxFixedArity (Target.sites (target.scan u)) (u.substitute target maxFixedArity) :=
  (u.substituteSites_scan target maxFixedArity).tell _

end ClassUnit

end Retrofit
