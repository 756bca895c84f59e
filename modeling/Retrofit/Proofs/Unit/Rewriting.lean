import Retrofit.Proofs.Body.Reloading
import Retrofit.Proofs.Patch
import Retrofit.Proofs.Recipe.Lowering
import Retrofit.Proofs.Unit.Loading

/-!
# Rewritten classes

Patch after patch, a loaded class changes in its pool, which grows, and in the bodies of methods that
are then marked as modified. Each of these bodies can be laid out and keeps the guards and tables that
it was loaded with.
-/

namespace Retrofit

theorem Body.Sound.congr {b b' : Body} (h : b.Sound) (hnodes : b'.nodes = b.nodes)
    (hlength : b'.loadedLength = b.loadedLength) : b'.Sound := by
  have horigins : b'.origins = b.origins := by rw [origins, origins, hnodes]
  refine ⟨⟨?_, ?_⟩, ?_⟩
  · rw [horigins]
    exact h.anchored.nodup
  · rw [horigins, hlength]
    exact h.anchored.lt_loadedLength
  · rw [hnodes]
    exact h.wellFormed

/-- A patch edits a body further. -/
theorem Body.EditedTo.patch {b₀ b b' : Body} (h : b₀.EditedTo b) {position : Nat}
    (hlt : position < b.nodes.length) {r : Replacement} {profile : StackProfile}
    {lowered : List Instruction} (hne : lowered ≠ []) (hstraight : ∀ i ∈ lowered, Straight i)
    (hpatch : b.patch position r profile lowered = .ok b') : b₀.EditedTo b' := by
  obtain ⟨i, is, rfl⟩ := List.exists_cons_of_ne_nil hne
  obtain ⟨-, -, hb', -⟩ := patch_eq_ok hpatch
  have hstep : SpliceStep Straight b (b.splice position (i :: is)) :=
    ⟨position, i, is, hlt, hstraight, rfl⟩
  have hspliced : (b.splice position (i :: is)).Sound := Spliced.sound (.single hstep) h.sound
  rw [splice_eq] at hspliced
  subst hb'
  exact ⟨hspliced.congr rfl rfl, h.guards_eq, h.tables_eq⟩

/-- The method is still as it was loaded, or it has an edited body that can be laid out. -/
inductive MethodUnit.Rewritten (m : MethodUnit) : MethodUnit → Prop
  | same : Rewritten m m
  | edited {i : Nat} {b₀ b : Body} {c : CodeAttribute} (hcode : m.code = some (i, b₀))
      (hedited : b₀.EditedTo b) (henc : b.encode = .ok c) :
      Rewritten m { m with code := some (i, b), modified := true }

/-- The class with the pool grown and methods rewritten. -/
structure ClassUnit.Rewritten (u v : ClassUnit) : Prop where
  name_eq : v.name = u.name
  file_eq : v.file = { u.file with pool := v.pool }
  grows : u.pool.Grows (Constant.Interned PlainText) v.pool
  methods : List.Forall₂ MethodUnit.Rewritten u.methods v.methods

/-- One patch that succeeds, with a replacement chosen for some call. -/
def ClassUnit.PatchStep (u v : ClassUnit) : Prop :=
  ∃ (site call : CallSite) (maxFixedArity : Nat) (r : Replacement),
    call.replacement maxFixedArity = .ok r ∧ u.patch site r = (v, .ok ())

theorem MethodUnit.Rewritten.withBody {m m' : MethodUnit} (h : m.Rewritten m')
    (hsound : ∀ b, m.body? = some b → b.Sound) {b b' : Body} (hb : m'.body? = some b)
    (hedit : ∀ b₀ : Body, b₀.EditedTo b → b₀.EditedTo b') {c : CodeAttribute}
    (henc : b'.encode = .ok c) : m.Rewritten (m'.withBody b') := by
  cases h with
  | same =>
      obtain ⟨⟨i, b⟩, hcode, rfl⟩ := Option.map_eq_some_iff.mp hb
      rw [MethodUnit.withBody, hcode]
      exact .edited hcode (hedit b ⟨hsound b hb, rfl, rfl⟩) henc
  | edited hcode hedited _ =>
      cases hb
      exact .edited hcode (hedit _ hedited) henc

namespace ClassUnit

variable {u v w : ClassUnit}

theorem rewritten_refl (u : ClassUnit) : u.Rewritten u :=
  ⟨rfl, rfl, .refl _ _, List.forall₂_same.mpr fun _ _ => .same⟩

/-- What one patch that succeeds does. -/
theorem PatchStep.rewritten (hsound : ∀ m ∈ u.methods, ∀ b, m.body? = some b → b.Sound)
    (h : u.Rewritten v) (hstep : PatchStep v w) : u.Rewritten w ∧ w.dirty = true ∧
      w.pool.entries.size ≤ 65534 := by
  obtain ⟨site, call, maxFixedArity, r, hr, hpatch⟩ := hstep
  obtain ⟨recipe, n, rfl⟩ := Replacement.exists_materialize hr
  obtain ⟨b, lowered, hpatches⟩ := patches_of_patch hpatch
  obtain ⟨pool, hlower, rfl⟩ := hpatches.lowers
  obtain ⟨hgrows, hsize, hne, hstraight⟩ := Recipe.lower_materialize hlower
  obtain ⟨profile, b', -, hb', hw⟩ := hpatches.installs
  obtain ⟨m, hm, hb, hholds⟩ := bodyOf?_eq_some_iff.mp hpatches.found
  obtain ⟨node, hnode, -, -⟩ := Body.holds_iff.mp hholds
  obtain ⟨-, -, -, c, henc⟩ := Body.patch_eq_ok hb'
  have hlt : site.position < b.nodes.length := (List.getElem?_eq_some_iff.mp hnode).1
  have hmethods : w.methods = v.methods.modify site.methodIndex (·.withBody b') := by
    rw [hw]
    rfl
  have hfile : w.file = { v.file with pool := w.pool } := by
    rw [hw]
    rfl
  refine ⟨⟨?_, ?_, h.grows.trans hgrows, ?_⟩, ?_, hsize⟩
  · rw [hw]
    exact h.name_eq
  · rw [hfile, h.file_eq]
  · rw [hmethods]
    refine forall₂_modify h.methods fun m₀ m' hm₀ hm' hrewritten => ?_
    rw [hm, Option.some_inj] at hm'
    subst hm'
    apply hrewritten.withBody (hsound m₀ hm₀) hb _ henc
    exact fun b₀ hedited => hedited.patch hlt hne hstraight hb'
  · rw [hw]
    rfl

/-- However many patches there were. -/
theorem rewritten_of_patches (hsound : ∀ m ∈ u.methods, ∀ b, m.body? = some b → b.Sound)
    (h : Relation.TransGen PatchStep u v) : u.Rewritten v ∧ v.dirty = true ∧
      v.pool.entries.size ≤ 65534 := by
  induction h with
  | single hstep => exact hstep.rewritten hsound u.rewritten_refl
  | tail _ hstep ih => exact hstep.rewritten hsound ih.1

end ClassUnit

end Retrofit
