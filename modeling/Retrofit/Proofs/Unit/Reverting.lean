import Retrofit.Proofs.Unit.AnyOrder

/-!
# Reverting after patches

Patches are tried on a loaded class one after the other, and whatever comes of each, reverting is to
bring back the loaded class. A patch that fails may leave constants in the pool without marking the
class as changed, and a class that is not marked is not reverted. So the loaded class comes back as
soon as one patch succeeded; otherwise all of it does but for the pool.
-/

namespace Retrofit.ClassUnit

/-- Try patches in order: the class that is left, and what became of each of them. -/
def patchAll (u : ClassUnit) :
    List (CallSite × Replacement) → ClassUnit × List (Except PatchError Unit)
  | [] => (u, [])
  | (s, r) :: ps =>
    let (v, outcome) := u.patch s r
    let (w, outcomes) := v.patchAll ps
    (w, outcome :: outcomes)

/-! ### One patch -/

section

variable {u v : ClassUnit} {s : CallSite} {r : Replacement}

/-- Whatever comes of a patch, the class keeps its name and the bytes that it was loaded from. -/
theorem patch_keeps (u : ClassUnit) (s : CallSite) (r : Replacement) :
    (u.patch s r).1.name = u.name ∧ (u.patch s r).1.loaded = u.loaded := by
  rcases hpatch : u.patch s r with ⟨v, outcome⟩
  cases outcome with
  | error e =>
      rw [eq_withPool_of_patch hpatch]
      exact ⟨rfl, rfl⟩
  | ok done =>
      obtain ⟨b, is, hpatches⟩ := patches_of_patch hpatch
      obtain ⟨profile, b', -, -, hv⟩ := hpatches.installs
      rw [hv]
      exact ⟨rfl, rfl⟩

theorem dirty_of_patch (h : u.patch s r = (v, .ok ())) : v.dirty = true := by
  obtain ⟨b, is, hpatches⟩ := patches_of_patch h
  obtain ⟨profile, b', -, -, hv⟩ := hpatches.installs
  rw [hv]
  rfl

/-- Once its call is found and its stack use known, a patch leaves what lowering made of the pool. -/
theorem pool_patch {b : Body} {profile : StackProfile} (hfound : u.bodyOf? s = some b)
    (hprofile : r.stackProfile = .ok profile) :
    (u.patch s r).1.pool = (r.lower u.pool b.scratchBase).1 := by
  unfold patch
  rw [hfound, hprofile]
  dsimp only
  split
  · rename_i p e hlower
    rw [hlower]
    rfl
  · rename_i p lowered hlower
    rw [hlower]
    split <;> rfl

/-- A patch leaves the pool as it was, or what lowering made of it. -/
theorem pool_patch_or (u : ClassUnit) (s : CallSite) (r : Replacement) :
    (u.patch s r).1.pool = u.pool ∨ ∃ b, u.bodyOf? s = some b ∧
      (u.patch s r).1.pool = (r.lower u.pool b.scratchBase).1 := by
  cases hfound : u.bodyOf? s with
  | none =>
      rw [patch, hfound]
      exact Or.inl rfl
  | some b =>
      cases hprofile : r.stackProfile with
      | error e =>
          rw [patch, hfound, hprofile]
          exact Or.inl rfl
      | ok profile => exact Or.inr ⟨b, rfl, pool_patch hfound hprofile⟩

/-- A class that is marked as changed stays so. -/
theorem dirty_patch (h : u.dirty = true) : (u.patch s r).1.dirty = true := by
  rcases hpatch : u.patch s r with ⟨v, outcome⟩
  cases outcome with
  | error e =>
      rw [eq_withPool_of_patch hpatch]
      exact h
  | ok done => exact dirty_of_patch hpatch

end

/-! ### Any number of patches -/

section

variable {u : ClassUnit}

theorem patchAll_cons (u : ClassUnit) (p : CallSite × Replacement)
    (ps : List (CallSite × Replacement)) : u.patchAll (p :: ps) =
      (((u.patch p.1 p.2).1.patchAll ps).1,
        (u.patch p.1 p.2).2 :: ((u.patch p.1 p.2).1.patchAll ps).2) := rfl

theorem patchAll_keeps (u : ClassUnit) (ps : List (CallSite × Replacement)) :
    (u.patchAll ps).1.name = u.name ∧ (u.patchAll ps).1.loaded = u.loaded := by
  induction ps generalizing u with
  | nil => exact ⟨rfl, rfl⟩
  | cons p ps ih =>
      obtain ⟨hname, hloaded⟩ := ih (u.patch p.1 p.2).1
      obtain ⟨hname', hloaded'⟩ := u.patch_keeps p.1 p.2
      exact ⟨hname.trans hname', hloaded.trans hloaded'⟩

theorem grows_of_patchAll (u : ClassUnit) (ps : List (CallSite × Replacement)) :
    u.pool.Grows (fun _ => True) (u.patchAll ps).1.pool := by
  induction ps generalizing u with
  | nil => exact .refl _ _
  | cons p ps ih => exact (u.grows_of_patch p.1 p.2).trans (ih _)

theorem dirty_patchAll (h : u.dirty = true) (ps : List (CallSite × Replacement)) :
    (u.patchAll ps).1.dirty = true := by
  induction ps generalizing u with
  | nil => exact h
  | cons p ps ih => exact ih (dirty_patch h)

/-- One patch that succeeds marks the class for good. -/
theorem dirty_patchAll_of_ok {ps : List (CallSite × Replacement)}
    (h : .ok () ∈ (u.patchAll ps).2) : (u.patchAll ps).1.dirty = true := by
  induction ps generalizing u with
  | nil => cases h
  | cons p ps ih =>
      rw [patchAll_cons] at h ⊢
      rcases List.mem_cons.mp h with hfirst | hrest
      · exact dirty_patchAll (dirty_of_patch (Prod.ext rfl hfirst.symm)) ps
      · exact ih hrest

/-- Patches that all fail change no more than the pool. -/
theorem patchAll_eq_withPool {ps : List (CallSite × Replacement)}
    (h : .ok () ∉ (u.patchAll ps).2) : (u.patchAll ps).1 = u.withPool (u.patchAll ps).1.pool := by
  induction ps generalizing u with
  | nil => rfl
  | cons p ps ih =>
      rw [patchAll_cons, List.mem_cons, not_or] at h
      rw [patchAll_cons]
      rcases hpatch : u.patch p.1 p.2 with ⟨v, outcome⟩
      rw [hpatch] at h
      cases outcome with
      | ok done => exact absurd rfl h.1
      | error e =>
          dsimp only at h ⊢
          rw [ih h.2, eq_withPool_of_patch hpatch]
          rfl

end

/-! ### Reverting -/

section

variable {bytes : List UInt8} {u v : ClassUnit}

/-- A class marked as changed is loaded anew. -/
theorem Loads.revert_of_dirty (h : Loads bytes u) (hname : v.name = u.name)
    (hloaded : v.loaded = u.loaded) (hdirty : v.dirty = true) : v.revert = u := by
  obtain ⟨⟨file, methods⟩, hdecode, hu⟩ := bind_eq_ok.mp (ofBytes_of_loads h)
  dsimp only at hu
  split at hu
  · cases hu
    unfold revert
    rw [if_pos hdirty, hloaded, hdecode]
    obtain ⟨name, file', methods', loaded, dirty⟩ := v
    dsimp only at hname hloaded ⊢
    rw [hname]
  · cases hu

theorem revert_of_clean (h : v.dirty = false) : v.revert = v := by
  unfold revert
  rw [if_neg (by rw [h]; decide)]

/-- Whatever patches were tried on a loaded class, reverting brings it back exactly if one of them
succeeded or none of them left anything in the pool. In any case it brings back all but the pool, the
pool keeps what was loaded in front, and the class is written out as the bytes it was loaded from. -/
theorem revert_patchAll (hload : ofBytes bytes = .ok u) (ps : List (CallSite × Replacement)) :
    ((u.patchAll ps).1.revert = u ↔
      .ok () ∈ (u.patchAll ps).2 ∨ (u.patchAll ps).1.pool = u.pool) ∧
    (u.patchAll ps).1.revert = u.withPool (u.patchAll ps).1.revert.pool ∧
    u.pool.Grows (fun _ => True) (u.patchAll ps).1.revert.pool ∧
    (u.patchAll ps).1.revert.toBytes = .ok bytes := by
  replace hload := loads_of_ofBytes hload
  obtain ⟨hname, hloaded⟩ := u.patchAll_keeps ps
  have hwritten : u.toBytes = .ok bytes := by
    unfold toBytes
    rw [hload.dirty_eq, hload.loaded_eq]
    rfl
  by_cases hok : .ok () ∈ (u.patchAll ps).2
  · rw [hload.revert_of_dirty hname hloaded (dirty_patchAll_of_ok hok)]
    exact ⟨iff_of_true rfl (Or.inl hok), rfl, .refl _ _, hwritten⟩
  · have hclean := patchAll_eq_withPool hok
    have hdirty : (u.patchAll ps).1.dirty = false := by
      rw [hclean]
      exact hload.dirty_eq
    rw [revert_of_clean hdirty]
    refine ⟨⟨fun heq => Or.inr (congrArg pool heq), ?_⟩, hclean, u.grows_of_patchAll ps, ?_⟩
    · rintro (hmem | hpool)
      · exact absurd hmem hok
      · rw [hclean, hpool]
        rfl
    · rw [← hwritten, hclean]
      unfold toBytes
      rw [show (u.withPool (u.patchAll ps).1.pool).dirty = false from hload.dirty_eq,
        hload.dirty_eq]
      rfl

/-- The body of a method that calls with the pool entry `index` and returns what it gets. -/
def callerBody (index : UInt16) : Body where
  maxStack := 1
  maxLocals := 0
  scratchBase := 0
  nodes := [⟨some 0, .invokestatic index⟩, ⟨some 3, .areturn⟩]
  loadedLength := 4
  guards := []
  tables := []

/-- A class with a method that calls a list factory, and one without code. -/
def caller : ClassFile where
  minor := 0
  major := 53
  pool :=
    { statedSize := 11
      entries := #[.utf8 (bytesOfText "Caller"), .classInfo 1, .utf8 (bytesOfText "call"),
        .utf8 (bytesOfText "()Ljava/util/List;"), .utf8 (bytesOfText "Code"),
        .utf8 (bytesOfText "java/util/List"), .classInfo 6, .utf8 (bytesOfText "of"),
        .nameAndType 8 4, .interfaceMethodRef 7 9] }
  access := 1
  thisClass := 2
  superClass := 0
  interfaces := []
  fields := []
  methods := [⟨8, 3, 4, [⟨5, (⟨1, 0, [0xb8, 0, 10, 0xb0], [], []⟩ : CodeAttribute).bytes⟩]⟩,
    ⟨0x108, 8, 4, []⟩]
  attributes := []

def callerUnit : ClassUnit where
  name := "Caller"
  file := caller
  methods := [⟨"call", "()Ljava/util/List;", 8, some (0, callerBody 10), false⟩,
    ⟨"of", "()Ljava/util/List;", 0x108, none, false⟩]
  loaded := caller.bytes
  dirty := false

def callerSite : CallSite where
  methodIndex := 0
  methodName := "call"
  position := 0
  offset := 0
  kind := .static
  index := 10
  owner := "java/util/List"
  name := "of"
  descriptor := "()Ljava/util/List;"
  type := ⟨[], .reference "java/util/List"⟩
  line := none

theorem ofBytes_caller : ofBytes caller.bytes = .ok callerUnit := by decide +kernel

theorem sites_callerUnit : Target.sites (callerTarget.scan callerUnit) = [callerSite] := by
  decide +kernel

theorem callerSite_replacement :
    callerSite.replacement 10 = .ok (Recipe.zeroArity.materialize 0) := by cbv

theorem callerUnit_patch :
    ∃ v, callerUnit.patch callerSite (Recipe.zeroArity.materialize 0) = (v, .ok ()) := by
  have hsucceeds : (callerUnit.patch callerSite (Recipe.zeroArity.materialize 0)).2 = .ok () := by
    decide +kernel
  exact ⟨_, Prod.ext rfl hsucceeds⟩

/-- The second patch is refused, since the call was replaced by the first one. -/
theorem revert_patchAll_caller : ofBytes caller.bytes = .ok callerUnit ∧
    (callerUnit.patchAll [(callerSite, Recipe.zeroArity.materialize 0),
      (callerSite, Recipe.zeroArity.materialize 0)]).1.revert = callerUnit := by
  obtain ⟨v, hpatch⟩ := callerUnit_patch
  refine ⟨ofBytes_caller, (revert_patchAll ofBytes_caller _).1.mpr (Or.inl ?_)⟩
  rw [patchAll_cons, hpatch]
  exact List.mem_cons_self

end

/-! ### A pool that is not reverted -/

/-- A class whose only method has a list made of its argument. The method uses all the local slots
that there can be, so there is none for the argument while the list is made. -/
def brim : ClassFile where
  minor := 0
  major := 53
  pool :=
    { statedSize := 12
      entries := #[.utf8 (bytesOfText "Brim"), .classInfo 1, .utf8 (bytesOfText "call"),
        .utf8 (bytesOfText "(Ljava/lang/Object;)Ljava/util/List;"), .utf8 (bytesOfText "Code"),
        .utf8 (bytesOfText "java/util/List"), .classInfo 6, .utf8 (bytesOfText "of"),
        .utf8 (bytesOfText "(Ljava/lang/Object;)Ljava/util/List;"), .nameAndType 8 9,
        .interfaceMethodRef 7 10] }
  access := 1
  thisClass := 2
  superClass := 0
  interfaces := []
  fields := []
  methods := [⟨9, 3, 4, [⟨5, (⟨1, 65535, [0x2a, 0xb8, 0, 11, 0xb0], [], []⟩ :
    CodeAttribute).bytes⟩]⟩]
  attributes := []

def brimBody : Body where
  maxStack := 1
  maxLocals := 65535
  scratchBase := 65535
  nodes := [⟨some 0, .aload 0⟩, ⟨some 1, .invokestatic 11⟩, ⟨some 4, .areturn⟩]
  loadedLength := 5
  guards := []
  tables := []

def brimUnit : ClassUnit where
  name := "Brim"
  file := brim
  methods := [⟨"call", "(Ljava/lang/Object;)Ljava/util/List;", 9, some (0, brimBody), false⟩]
  loaded := brim.bytes
  dirty := false

def brimSite : CallSite where
  methodIndex := 0
  methodName := "call"
  position := 1
  offset := 1
  kind := .static
  index := 11
  owner := "java/util/List"
  name := "of"
  descriptor := "(Ljava/lang/Object;)Ljava/util/List;"
  type := ⟨[.reference "java/lang/Object"], .reference "java/util/List"⟩
  line := none

theorem sites_brimUnit : Target.sites (callerTarget.scan brimUnit) = [brimSite] := by decide +kernel

/-- The class of growable lists is not in the pool, so lowering adds it before anything can fail. -/
theorem size_lower_brim : brim.pool.entries.size <
    ((Recipe.fixedArity.materialize 1).lower brim.pool 65535).1.entries.size := by
  decide +kernel

/-- The call cannot be replaced. -/
theorem patch_brim (v : ClassUnit) :
    brimUnit.patch brimSite (Recipe.fixedArity.materialize 1) ≠ (v, .ok ()) := by
  have hfails : (brimUnit.patch brimSite (Recipe.fixedArity.materialize 1)).2 =
      .error (.tooManyLocals 65536) := by
    decide +kernel
  intro hpatch
  rw [hpatch] at hfails
  cases hfails

/-- The only call of the class cannot be replaced, and what was put into the pool for it stays there
when the class is reverted. -/
theorem revert_keeps_constants : ofBytes brim.bytes = .ok brimUnit ∧
    Target.sites (callerTarget.scan brimUnit) = [brimSite] ∧
    brimSite.replacement 10 = .ok (Recipe.fixedArity.materialize 1) ∧
    (brimUnit.patchAll [(brimSite, Recipe.fixedArity.materialize 1)]).1.revert ≠ brimUnit := by
  have hload : ofBytes brim.bytes = .ok brimUnit := by cbv
  have hreplacement : brimSite.replacement 10 = .ok (Recipe.fixedArity.materialize 1) := by cbv
  have hfound : brimUnit.bodyOf? brimSite = some brimBody := by cbv
  have hprofile : (Recipe.fixedArity.materialize 1).stackProfile = .ok ⟨3, 1⟩ := by cbv
  refine ⟨hload, sites_brimUnit, hreplacement, fun hrevert => ?_⟩
  have hpool : (brimUnit.patch brimSite (Recipe.fixedArity.materialize 1)).1.pool =
      ((Recipe.fixedArity.materialize 1).lower brim.pool 65535).1 := pool_patch hfound hprofile
  have hsize := size_lower_brim
  rcases hpatch : brimUnit.patch brimSite (Recipe.fixedArity.materialize 1) with ⟨v, outcome⟩
  rw [patchAll_cons, hpatch] at hrevert
  rw [hpatch] at hpool
  cases outcome with
  | ok done => exact absurd hpatch (patch_brim v)
  | error e =>
      have hclean : v.dirty = false := by
        rw [eq_withPool_of_patch hpatch]
        rfl
      have hv : v = brimUnit := (revert_of_clean hclean).symm.trans hrevert
      rw [← hpool, hv] at hsize
      exact absurd hsize (Nat.lt_irrefl _)

end Retrofit.ClassUnit
