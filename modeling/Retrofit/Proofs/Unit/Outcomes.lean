import Retrofit.Proofs.Unit.Reverting

/-!
# What a patch leaves behind

A patch that fails leaves every method as it was. One that succeeds changes one method, and the body
it installs can be laid out. In either case the pool is appended to at most. So every method of a
loaded class can be laid out after any number of patches, whatever became of each, and the class can
be written.
-/

namespace Retrofit

theorem Step.lower_restated (scratch : UInt16) (p : Pool) (s : Step) :
    p.Restated (s.lower scratch p).1 := by
  cases s with
  | new type => exact p.internClass_restated type
  | invoke c => exact p.internMethod_restated c.owner c.name c.descriptor (c.kind == .interface)
  | _ => exact Or.inl rfl

theorem Step.lowerOnto_restated (scratch : UInt16) (p : Pool) (acc : List Instruction)
    (steps : List Step) : p.Restated (lowerOnto scratch p acc steps).1 := by
  induction steps generalizing p acc with
  | nil => exact Or.inl rfl
  | cons s steps ih =>
      have hstep := s.lower_restated scratch p
      rw [lowerOnto]
      split
      · rename_i q i hlower
        rw [hlower] at hstep
        exact hstep.trans (ih q (i :: acc))
      · rename_i q e hlower
        rw [hlower] at hstep
        exact hstep

theorem Replacement.lower_appended (r : Replacement) (p : Pool) (scratch : UInt16) :
    p.Appended (r.lower p scratch).1 := by
  refine ⟨r.lower_grows p scratch, ?_⟩
  unfold lower
  split
  · exact Or.inl rfl
  · exact Step.lowerOnto_restated scratch p [] r.steps

namespace ClassUnit

/-! ### One patch -/

/-- What every patch keeps: all but the methods and the mark of a change, with the pool appended to
at most. -/
structure Keeps (u v : ClassUnit) : Prop where
  name_eq : v.name = u.name
  loaded_eq : v.loaded = u.loaded
  file_eq : v.file = { u.file with pool := v.pool }
  appended : u.pool.Appended v.pool

/-- No method has changed, and the class is marked as before. -/
structure Spared (u v : ClassUnit) : Prop extends Keeps u v where
  methods_eq : v.methods = u.methods
  dirty_eq : v.dirty = u.dirty

/-- The method at position `i` has got a body that can be laid out, is marked as modified, and is the
only one that has changed. -/
structure Installed (i : Nat) (u v : ClassUnit) : Prop extends Keeps u v where
  method : ∃ m j b b' c, u.methods[i]? = some m ∧ m.code = some (j, b) ∧
    v.methods[i]? = some { m with code := some (j, b'), modified := true } ∧ b'.encode = .ok c
  others : ∀ k, k ≠ i → v.methods[k]? = u.methods[k]?
  dirty : v.dirty = true

section

variable {u v : ClassUnit} {s : CallSite} {r : Replacement}

/-- Whatever comes of a patch, it only appends to the pool. -/
theorem patch_appended (u : ClassUnit) (s : CallSite) (r : Replacement) :
    u.pool.Appended (u.patch s r).1.pool := by
  refine ⟨u.grows_of_patch s r, ?_⟩
  rcases u.pool_patch_or s r with hpool | ⟨b, -, hpool⟩ <;> rw [hpool]
  · exact Or.inl rfl
  · exact (r.lower_appended u.pool b.scratchBase).restated

theorem spared_of_patch {e : PatchError} (h : u.patch s r = (v, .error e)) : u.Spared v := by
  have happended := u.patch_appended s r
  rw [h] at happended
  have hv := eq_withPool_of_patch h
  refine ⟨⟨?_, ?_, ?_, happended⟩, ?_, ?_⟩ <;>
  · rw [hv]
    rfl

theorem installed_of_patch (h : u.patch s r = (v, .ok ())) : u.Installed s.methodIndex v := by
  have happended := u.patch_appended s r
  rw [h] at happended
  obtain ⟨b, lowered, hpatches⟩ := patches_of_patch h
  obtain ⟨profile, b', -, hb', hv⟩ := hpatches.installs
  obtain ⟨m, hm, hbody, -⟩ := bodyOf?_eq_some_iff.mp hpatches.found
  obtain ⟨-, -, -, c, henc⟩ := Body.patch_eq_ok hb'
  obtain ⟨⟨j, b₀⟩, hcode, rfl⟩ := Option.map_eq_some_iff.mp hbody
  have hmethods : v.methods = u.methods.modify s.methodIndex (·.withBody b') := by
    rw [hv]
    rfl
  have hkeeps : u.Keeps v := by
    refine ⟨?_, ?_, ?_, happended⟩ <;>
    · rw [hv]
      rfl
  refine ⟨hkeeps, ⟨m, j, b₀, b', c, hm, hcode, ?_, henc⟩, ?_, dirty_of_patch h⟩
  · rw [hmethods, List.getElem?_modify_eq, hm, Option.map_eq_map, Option.map_some,
      MethodUnit.withBody, hcode, Option.map_some]
  · intro k hk
    rw [hmethods, List.getElem?_modify_ne _ _ hk.symm]

/-- What a patch of the class comes to. -/
inductive Outcome (u : ClassUnit) (s : CallSite) : ClassUnit × Except PatchError Unit → Prop
  | failed {v : ClassUnit} {e : PatchError} (h : u.Spared v) : Outcome u s (v, .error e)
  | succeeded {v : ClassUnit} (h : u.Installed s.methodIndex v) : Outcome u s (v, .ok ())

/-- A patch that fails changes nothing but the pool. One that succeeds changes the method of its site
as well, which gets a body that can be laid out, and marks that method and the class. -/
theorem patch_outcome (u : ClassUnit) (s : CallSite) (r : Replacement) :
    Outcome u s (u.patch s r) := by
  rcases hpatch : u.patch s r with ⟨v, outcome⟩
  cases outcome with
  | error e => exact .failed (spared_of_patch hpatch)
  | ok done => exact .succeeded (installed_of_patch hpatch)

/-- A patch that succeeds, and one that fails only after constants were put into the pool. -/
theorem patch_outcome_caller_brim :
    (∃ v, callerUnit.patch callerSite (Recipe.zeroArity.materialize 0) = (v, .ok ()) ∧
      callerUnit.Installed 0 v) ∧
    ∃ v e, brimUnit.patch brimSite (Recipe.fixedArity.materialize 1) = (v, .error e) ∧
      brimUnit.Spared v ∧ v.pool ≠ brimUnit.pool := by
  constructor
  · obtain ⟨v, hpatch⟩ := callerUnit_patch
    have houtcome := patch_outcome callerUnit callerSite (Recipe.zeroArity.materialize 0)
    rw [hpatch] at houtcome
    cases houtcome with
    | succeeded h => exact ⟨v, hpatch, h⟩
  · have houtcome := patch_outcome brimUnit brimSite (Recipe.fixedArity.materialize 1)
    rcases hpatch : brimUnit.patch brimSite (Recipe.fixedArity.materialize 1) with ⟨v, outcome⟩
    rw [hpatch] at houtcome
    cases houtcome with
    | succeeded h => exact absurd hpatch (patch_brim v)
    | @failed _ e h =>
        have hfound : brimUnit.bodyOf? brimSite = some brimBody := by cbv
        have hprofile : (Recipe.fixedArity.materialize 1).stackProfile = .ok ⟨3, 1⟩ := by cbv
        have hlower : (brimUnit.patch brimSite (Recipe.fixedArity.materialize 1)).1.pool =
            ((Recipe.fixedArity.materialize 1).lower brim.pool 65535).1 :=
          pool_patch hfound hprofile
        rw [hpatch] at hlower
        refine ⟨v, e, rfl, h, fun hpool => ?_⟩
        have hsize := size_lower_brim
        rw [← hlower, hpool] at hsize
        exact absurd hsize (Nat.lt_irrefl _)

end

/-! ### Any number of patches -/

/-- The body of every modified method can be laid out. -/
def LaidOut (u : ClassUnit) : Prop :=
  ∀ m ∈ u.methods, ∀ b, m.modified = true → m.body? = some b → ∃ c, b.encode = .ok c

namespace LaidOut

variable {u v : ClassUnit}

theorem of_installed (h : u.LaidOut) {i : Nat} (hinstalled : u.Installed i v) : v.LaidOut := by
  intro m' hm' b hmodified hb
  obtain ⟨k, hk⟩ := List.mem_iff_getElem?.mp hm'
  by_cases hki : k = i
  · subst hki
    obtain ⟨m, j, b₀, b', c, -, -, hmethod, henc⟩ := hinstalled.method
    rw [hk, Option.some_inj] at hmethod
    subst hmethod
    cases hb
    exact ⟨c, henc⟩
  · rw [hinstalled.others k hki] at hk
    exact h m' (List.mem_of_getElem? hk) b hmodified hb

theorem patch (h : u.LaidOut) (s : CallSite) (r : Replacement) : (u.patch s r).1.LaidOut := by
  rcases hpatch : u.patch s r with ⟨v, outcome⟩
  cases outcome with
  | error e =>
      unfold LaidOut
      rw [(spared_of_patch hpatch).methods_eq]
      exact h
  | ok done => exact h.of_installed (installed_of_patch hpatch)

theorem patchAll (h : u.LaidOut) (ps : List (CallSite × Replacement)) :
    (u.patchAll ps).1.LaidOut := by
  induction ps generalizing u with
  | nil => exact h
  | cons p ps ih => exact ih (h.patch p.1 p.2)

theorem exists_toMember (h : u.LaidOut) {e : MethodUnit} (he : e ∈ u.methods) (m : Member) :
    ∃ m', e.toMember m = .ok m' := by
  cases hmodified : e.modified with
  | false => exact ⟨m, MethodUnit.toMember_of_unmodified m hmodified⟩
  | true =>
      cases hcode : e.code with
      | none => exact ⟨m, by rw [MethodUnit.toMember, hcode]⟩
      | some code =>
          have hb : e.body? = some code.2 := by rw [MethodUnit.body?, hcode, Option.map_some]
          obtain ⟨c, henc⟩ := h e he code.2 hmodified hb
          exact ⟨_, MethodUnit.toMember_of_modified m hmodified hcode henc⟩

theorem exists_toBytes (h : u.LaidOut) : ∃ out, u.toBytes = .ok out := by
  unfold toBytes
  split
  · have hwrite : ∀ x ∈ u.file.methods.zip u.methods, ∃ m', x.2.toMember x.1 = .ok m' :=
      fun x hx => h.exists_toMember (List.of_mem_zip hx).2 x.1
    obtain ⟨ms, hms⟩ := exists_mapM_eq_ok hwrite
    refine ⟨_, bind_eq_ok.mpr ⟨ms, mapM_eq_ok.mpr ?_, rfl⟩⟩
    refine (mapM_eq_ok.mp hms).imp fun x m' hm' => ?_
    dsimp only
    rw [hm']
  · exact ⟨u.loaded, rfl⟩

end LaidOut

theorem laidOut_of_ofBytes {bytes : List UInt8} {u : ClassUnit} (h : ofBytes bytes = .ok u) :
    u.LaidOut := by
  intro m hm b hmodified
  obtain ⟨_, -, hm'⟩ := exists_of_forall₂ (loads_of_ofBytes h).methods.flip hm
  simp [hm'.modified] at hmodified

/-- Whatever patches were tried on a loaded class, it can be written. -/
theorem exists_toBytes_patchAll {bytes : List UInt8} {u : ClassUnit} (h : ofBytes bytes = .ok u)
    (ps : List (CallSite × Replacement)) : ∃ out, (u.patchAll ps).1.toBytes = .ok out :=
  ((laidOut_of_ofBytes h).patchAll ps).exists_toBytes

end ClassUnit

end Retrofit
