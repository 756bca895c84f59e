import Retrofit.Proofs.Unit.Rescanning

/-!
# Classes that were processed before

A class whose calls were replaced is written out, loaded again and processed with the same target. The
calls are the same as in the class that was written, so the second scan finds what the first one left
and nothing else that a recipe covers. Nothing is replaced, and the class is written out as the bytes
it was loaded from.
-/

namespace Retrofit

/-! ### The calls after a reload -/

theorem Instruction.call?_unaimed (i : Instruction) : i.unaimed.call? = i.call? := by
  cases i <;> rfl

namespace Body

/-- All the nodes of a loaded body are loaded instructions. -/
theorem allLoaded_of_decode {p : Pool} {c : CodeAttribute} {b : Body}
    (h : Body.decode p c = .ok b) : b.AllLoaded := by
  obtain ⟨is, tables, -, -, rfl⟩ := decode_eq_ok_iff.mp h
  intro n hn
  obtain ⟨place, -, rfl⟩ := List.mem_map.mp hn
  exact Option.some_ne_none _

theorem instructions_of_decode {p : Pool} {c : CodeAttribute} {b : Body}
    (h : Body.decode p c = .ok b) {l : List (Nat × Instruction)} (hl : Code.decode c.code = .ok l) :
    b.instructions = l.map Prod.snd := by
  obtain ⟨is, tables, hspells, -, rfl⟩ := decode_eq_ok_iff.mp h
  rw [Code.decode_eq_ok_iff.mpr ⟨is, hspells, rfl⟩, Except.ok.injEq] at hl
  rw [instructions, List.map_map, ← hl]
  rfl

/-- What a body is laid out to is loaded with the same calls. -/
theorem Sound.map_call?_eq {q : Pool} {b b' : Body} {c : CodeAttribute} (hb : b.Sound)
    (henc : b.encode = .ok c) (hdecode : Body.decode q c = .ok b') :
    b'.instructions.map Instruction.call? = b.instructions.map Instruction.call? := by
  obtain ⟨is, hlaid, hcode⟩ := exists_laidOut hb.anchored henc
  have hread := decode_of_laidOut hlaid hb.wellFormed
  rw [← addresses_of_laidOut hlaid, Code.addresses_zip, ← hcode] at hread
  rw [instructions_of_decode hdecode hread, Code.map_snd_placesFrom, ← List.forall₂_eq_eq_eq,
    List.forall₂_map_left_iff, List.forall₂_map_right_iff]
  refine (unaimed_of_laidOut hlaid).flip.imp fun j i hij => ?_
  rw [← Instruction.call?_unaimed, hij, Instruction.call?_unaimed]

end Body

namespace MethodUnit

variable {q : Pool} {m m' : Member} {e e' : MethodUnit}

theorem SameCalls.refl (h : ∀ b, e.body? = some b → b.AllLoaded) :
    e.SameCalls e := by
  refine ⟨rfl, ?_⟩
  cases hb : e.body? with
  | none => exact .none
  | some b => exact .some ⟨rfl, h b hb⟩

/-- A method that was written out is loaded again with the same calls. -/
theorem Reloaded.sameCalls (h : Reloaded q m e m' e')
    (hsound : ∀ b, e.body? = some b → b.Sound)
    (hloaded : e.modified = false → ∀ b, e.body? = some b → b.AllLoaded) :
    e.SameCalls e' := by
  cases h with
  | untouched hmodified => exact .refl (hloaded hmodified)
  | @rewritten i a b b' c _ hcode _ _ henc _ hdecode =>
      have hbody : e.body? = some b := by
        rw [body?, hcode]
        rfl
      refine ⟨rfl, ?_⟩
      rw [hbody]
      exact .some ⟨(hsound b hbody).map_call?_eq henc hdecode, Body.allLoaded_of_decode hdecode⟩

end MethodUnit

namespace ClassUnit

variable {bytes : List UInt8} {u v w : ClassUnit}

theorem Loads.allLoaded (h : Loads bytes u) : u.AllLoaded := by
  intro m hm b hb
  obtain ⟨c, hdecode⟩ := h.exists_decode hm hb
  exact Body.allLoaded_of_decode hdecode

/-- A rewritten class that was written out is loaded again with the same calls. -/
theorem Reloaded.sameCalls (h : u.Reloaded v w) (hload : Loads bytes u) (hrewritten : u.Rewritten v) :
    List.Forall₂ MethodUnit.SameCalls v.methods w.methods := by
  obtain ⟨hv, hfile, hw⟩ := h.count
  have hpairs : List.Forall₂ (fun x y : Member × MethodUnit => x.2.SameCalls y.2)
      (u.file.methods.zip v.methods) (w.file.methods.zip w.methods) := by
    have hmem : ∀ x ∈ u.file.methods.zip v.methods, x.2 ∈ v.methods :=
      fun x hx => (List.of_mem_zip hx).2
    refine ((List.forall₂_and_left _ _).mpr ⟨hmem, h.methods⟩).imp ?_
    rintro ⟨m, e⟩ ⟨m', e'⟩ ⟨he, hreloaded⟩
    dsimp only at he hreloaded ⊢
    obtain ⟨e₀, he₀, hrewritten'⟩ := exists_of_forall₂ hrewritten.methods.flip he
    cases hrewritten' with
    | same => exact hreloaded.sameCalls (hload.sound e he₀) fun _ => hload.allLoaded e he₀
    | edited _ hedited _ =>
        refine hreloaded.sameCalls (fun b hb => ?_) fun hmodified => nomatch hmodified
        cases hb
        exact hedited.sound
  have hleft : (u.file.methods.zip v.methods).map Prod.snd = v.methods :=
    List.map_snd_zip (Nat.le_of_eq hv)
  have hright : (w.file.methods.zip w.methods).map Prod.snd = w.methods :=
    List.map_snd_zip (by omega)
  rw [← hleft, ← hright, List.forall₂_map_left_iff, List.forall₂_map_right_iff]
  exact hpairs

/-- However often it was patched, a class is written out and loaded again with the same calls. -/
theorem exists_emitted_sameCalls (hload : Loads bytes u)
    (hempty : NoEmptySlot u.pool.entries.toList) (hrun : Relation.ReflTransGen PatchStep u v) :
    ∃ out, v.toBytes = .ok out ∧ (bytes.length < 2 ^ 30 → v.CodeFits) ∧
      (v.CodeFits → ∃ w, Loads out w ∧ v.pool.Grows (fun _ => True) w.pool ∧
        List.Forall₂ MethodUnit.SameCalls v.methods w.methods) := by
  rcases Relation.reflTransGen_iff_eq_or_transGen.mp hrun with rfl | hrun
  · have hunmodified : ∀ m ∈ v.methods, m.modified = false := by
      intro m hm
      obtain ⟨_, -, hm⟩ := exists_of_forall₂ hload.methods.flip hm
      exact hm.modified
    refine ⟨v.loaded, ?_, ?_, fun _ => ⟨v, ?_, .refl _ _, ?_⟩⟩
    · unfold toBytes
      rw [hload.dirty_eq]
      rfl
    · intro _ m hm b c hmodified
      rw [hunmodified m hm] at hmodified
      cases hmodified
    · rw [hload.loaded_eq]
      exact hload
    · exact List.forall₂_same.mpr fun m hm => .refl (hload.allLoaded m hm)
  · obtain ⟨hrewritten, out, hout, hreload⟩ := exists_emitted hload hempty hrun
    refine ⟨out, hout, hrewritten.codeFits hload, fun hfits => ?_⟩
    obtain ⟨w, hw, hreloaded, hpool⟩ := hreload hfits
    refine ⟨w, loads_of_ofBytes hw, ?_, hreloaded.sameCalls hload hrewritten⟩
    rw [hpool]
    exact .refl _ v.pool

/-! ### The first time -/

section

variable {t : Target} {maxFixedArity : Nat} {records : List Substitution} {events : List Event}

/-- Calls that are replaced are patched one after the other. -/
theorem patches_of_substituteSites {done : List Substitution} {told : List Event}
    {sites : List CallSite}
    (h : u.substituteSites maxFixedArity done told sites = ⟨v, .ok records, events⟩) :
    Relation.ReflTransGen PatchStep u v := by
  induction sites generalizing u done told with
  | nil =>
      cases h
      exact .refl
  | cons s sites ih =>
      rw [substituteSites] at h
      split at h
      · exact ih h
      · rename_i r hr
        dsimp only at h
        split at h
        · cases h
        · rename_i w hpatch
          exact .head ⟨s, s, maxFixedArity, r, hr, hpatch⟩ (ih h)

end

end ClassUnit

/-- Each change is lowered for its method, and the pool only grows. -/
theorem Lowered.compiled {u : ClassUnit} {maxFixedArity : Nat} {sites : List CallSite} {pool : Pool}
    {changes : List Change} (h : Lowered u maxFixedArity sites pool changes) :
    u.pool.Grows (fun _ => True) pool ∧ ∀ c ∈ changes, c.Compiled u maxFixedArity pool := by
  induction h with
  | nil => exact ⟨.refl _ _, by simp⟩
  | leftAlone _ _ ih => exact ih
  | @replaced s sites pool pool' changes r b is hs hb hlower _ ih =>
      have hgrows := r.lower_grows pool b.scratchBase
      rw [hlower] at hgrows
      refine ⟨ih.1.trans hgrows, List.forall_mem_cons.mpr ⟨?_, fun c hc => (ih.2 c hc).grow hgrows⟩⟩
      exact ⟨hs, b, pool, pool', hb, hlower, .refl _ _⟩

theorem Lowered.complete {u : ClassUnit} {maxFixedArity : Nat} {sites : List CallSite} {pool : Pool}
    {changes : List Change} (h : Lowered u maxFixedArity sites pool changes) {s : CallSite}
    (hs : s ∈ sites) (hcovered : s.rejected maxFixedArity = false) : ∃ c ∈ changes, c.site = s := by
  obtain ⟨r, hr⟩ := CallSite.not_rejected_iff.mp hcovered
  have hmem : (s, r) ∈ changes.map fun c => (c.site, c.replacement) := by
    rw [h.map_eq, List.mem_filterMap]
    refine ⟨s, hs, ?_⟩
    rw [hr]
    rfl
  obtain ⟨c, hc, hpair⟩ := List.mem_map.mp hmem
  exact ⟨c, hc, congrArg Prod.fst hpair⟩

namespace ClassUnit

section

variable {u v : ClassUnit} {t : Target} {maxFixedArity : Nat} {records : List Substitution}
  {events : List Event}

/-- When all went well, the class was patched and exactly the calls are replaced that a recipe
covers. -/
theorem fullySubstituted_of_substitute
    (h : u.substitute t maxFixedArity = ⟨v, .ok records, events⟩) :
    Relation.ReflTransGen PatchStep u v ∧ ∃ changes, records = changes.map Change.record ∧
      FullySubstituted u t maxFixedArity changes v := by
  have hall := u.substituteSites_scan t maxFixedArity
  unfold substitute at h
  dsimp only at h
  generalize hattempt : u.substituteSites maxFixedArity [] [] _ = attempt at h hall
  cases hall with
  | failed => cases h
  | @done v' changes _ hlowered hsubstituted =>
      cases h
      obtain ⟨hgrows, hcompiled⟩ := hlowered.compiled
      refine ⟨patches_of_substituteSites hattempt, changes, rfl, hsubstituted, hgrows, ?_, ?_⟩
      · exact fun c hc => ⟨hlowered.mem_sites c hc, hcompiled c hc⟩
      · exact fun s hs => hlowered.complete hs

/-- A single site is replaced by a single patch. -/
theorem exists_substitute_singleton {s : CallSite} {r : Replacement}
    (hsites : Target.sites (t.scan u) = [s]) (hr : s.replacement maxFixedArity = .ok r)
    (hpatch : u.patch s r = (v, .ok ())) :
    ∃ records events, u.substitute t maxFixedArity = ⟨v, .ok records, events⟩ := by
  refine ⟨[.ofSite s r], (t.scan u).filterMap Finding.event? ++ [.replacing u.dottedName s.line r,
    .replaced v.dottedName s.line s.owner s.name], ?_⟩
  unfold substitute
  dsimp only
  rw [hsites, List.reverse_singleton, substituteSites, hr]
  dsimp only
  rw [hpatch]
  rfl

/-! ### The second time -/

/-- Where no recipe covers a site, nothing is replaced. -/
theorem substituteSites_rejected {sites : List CallSite}
    (h : ∀ s ∈ sites, s.rejected maxFixedArity = true) (u : ClassUnit) (done : List Substitution)
    (told : List Event) :
    ∃ events, u.substituteSites maxFixedArity done told sites = ⟨u, .ok done, events⟩ := by
  induction sites generalizing told with
  | nil => exact ⟨told.reverse, rfl⟩
  | cons s sites ih =>
      obtain ⟨hs, hsites⟩ := List.forall_mem_cons.mp h
      obtain ⟨e, he⟩ := CallSite.rejected_iff.mp hs
      rw [substituteSites, he]
      exact ih hsites _

theorem substitute_rejected (h : ∀ s ∈ Target.sites (t.scan u), s.rejected maxFixedArity = true) :
    ∃ events, u.substitute t maxFixedArity = ⟨u, .ok [], events⟩ := by
  obtain ⟨events, hevents⟩ := substituteSites_rejected
    (fun s hs => h s (List.mem_reverse.mp hs)) u [] []
  refine ⟨(t.scan u).filterMap Finding.event? ++ events, ?_⟩
  unfold substitute
  dsimp only
  rw [hevents]

/-- The class `w`, loaded from `out`, has nothing left to replace of what was found in `u`. -/
structure Settled (t : Target) (maxFixedArity : Nat) (u : ClassUnit) (out : List UInt8)
    (w : ClassUnit) : Prop where
  loaded : ofBytes out = .ok w
  found : FoundAgain t maxFixedArity u w
  /-- If recipes do not call the sought method, nothing but these sites is found. -/
  found_eq : (∀ c ∈ Recipe.listMethods, ¬t.Names c) →
    (Target.sites (t.scan w)).map CallSite.unplaced =
      ((Target.sites (t.scan u)).filter (CallSite.rejected maxFixedArity)).map CallSite.unplaced
  rejected : ∀ s ∈ Target.sites (t.scan w), s.rejected maxFixedArity = true
  unchanged : ∃ events, w.substitute t maxFixedArity = ⟨w, .ok [], events⟩
  emitted : w.toBytes = .ok out

theorem settled_of_foundAgain {out : List UInt8} {w : ClassUnit} (hload : Loads out w)
    (h : FoundAgain t maxFixedArity u w) : Settled t maxFixedArity u out w := by
  have hrejected : ∀ s ∈ Target.sites (t.scan w), s.rejected maxFixedArity = true := by
    intro s hs
    rw [← CallSite.rejected_unplaced]
    rcases h.mem_or _ (List.mem_map_of_mem hs) with hfound | hinserted
    · obtain ⟨s', hs', heq⟩ := List.mem_map.mp hfound
      rw [← heq, CallSite.rejected_unplaced]
      exact (List.mem_filter.mp hs').2
    · exact hinserted.rejected maxFixedArity
  refine ⟨ofBytes_of_loads hload, h, fun hnames => ?_, hrejected, substitute_rejected hrejected, ?_⟩
  · exact h.eq_of_not fun s ⟨c, hc, hname, _⟩ => hnames c hc hname
  · unfold toBytes
    rw [hload.dirty_eq, hload.loaded_eq]
    rfl

/-- Processing a class once is enough. What was written is loaded again if every new `Code` attribute
fits its 32-bit length, as they all do in a class of less than a gigabyte. The sites that no recipe
covers are then found again; there is nothing to replace, and the class is written as the same bytes.
The pool must not gain a meaning for an index that led nowhere, and the sought method must not be one
that recipes call as a factory: its calls could be replaced over and over. -/
theorem substitute_settles {bytes : List UInt8} (hload : ofBytes bytes = .ok u)
    (hempty : NoEmptySlot u.pool.entries.toList) (hcalls : u.CallsEnclosed)
    (htarget : ∀ callee ∈ Recipe.factories, ¬t.Names callee)
    (h : u.substitute t maxFixedArity = ⟨v, .ok records, events⟩) :
    ∃ out, v.toBytes = .ok out ∧ (bytes.length < 2 ^ 30 → v.CodeFits) ∧
      (v.CodeFits → ∃ w, Settled t maxFixedArity u out w) := by
  replace hload := loads_of_ofBytes hload
  obtain ⟨hrun, changes, -, hfully⟩ := fullySubstituted_of_substitute h
  obtain ⟨out, hout, hshort, hreload⟩ := exists_emitted_sameCalls hload hempty hrun
  refine ⟨out, hout, hshort, fun hfits => ?_⟩
  obtain ⟨w, hw, hgrows, hsame⟩ := hreload hfits
  exact ⟨w, settled_of_foundAgain hw (hfully.rescan hload.allLoaded hcalls htarget hgrows hsame)⟩

theorem callsEnclosed_pairUnit : pairUnit.CallsEnclosed := by
  have hreferences : ∀ c ∈ pair.pool.entries, ∀ k ∈ c.references,
      k.toNat ≤ pair.pool.entries.size := by
    simp [pair, pairPool, Constant.references]
  intro m hm b hb c hc
  apply Pool.enclosed_of_references hreferences
  obtain rfl := List.mem_singleton.mp hm
  cases hb
  have hcalls : pairBody.calls = [⟨1, some 1, .static, 27⟩, ⟨4, some 6, .static, 27⟩] := by decide
  rw [hcalls] at hc
  obtain rfl | rfl := List.mem_pair.mp hc <;> decide

/-- Neither of the two calls is left, and the calls that took their place are none to replace. -/
theorem substitute_settles_pair :
    ofBytes pair.bytes = .ok pairUnit ∧ ∃ records events,
      pairUnit.substitute callerTarget 10 = ⟨pairTwice, .ok records, events⟩ ∧
        ∃ out w, pairTwice.toBytes = .ok out ∧ Settled callerTarget 10 pairUnit out w := by
  obtain ⟨events, h⟩ := pairUnit_substitute
  have htarget : ∀ callee ∈ Recipe.factories, ¬callerTarget.Names callee := by
    simp [Recipe.factories, Target.Names, callerTarget, Recipe.asList, Recipe.emptyList,
      Recipe.unmodifiableList]
  obtain ⟨out, hout, hshort, hsettled⟩ := substitute_settles ofBytes_pair noEmptySlot_pairUnit
    callsEnclosed_pairUnit htarget h
  obtain ⟨w, hw⟩ := hsettled (hshort length_pair)
  exact ⟨ofBytes_pair, _, events, h, out, w, hout, hw⟩

end

/-! ### A class that does not settle -/

/-- Entries of a class with two calls of methods `add`. The descriptor of the second one lies past the
end, where the next entry will be. -/
def looseEntries : List Constant :=
  [.utf8 (bytesOfText "Loose"), .classInfo 1, .utf8 (bytesOfText "call"),
    .utf8 (bytesOfText "()V"), .utf8 (bytesOfText "Code"),
    .utf8 (bytesOfText "java/util/ArrayList"), .classInfo 6,
    .utf8 (bytesOfText "java/util/Collections"), .classInfo 8,
    .utf8 (bytesOfText "<init>"), .utf8 (bytesOfText "(I)V"), .nameAndType 10 11, .methodRef 7 12,
    .utf8 (bytesOfText "add"), .utf8 (bytesOfText "(Ljava/lang/Object;)Z"), .nameAndType 14 15,
    .methodRef 7 16,
    .utf8 (bytesOfText "(Ljava/lang/Object;)Ljava/util/List;"), .nameAndType 14 18,
    .methodRef 7 19,
    .utf8 (bytesOfText "unmodifiableList"), .nameAndType 14 24, .methodRef 7 22]

/-- The entries that the replacement of the first call adds. -/
def looseAdded : List Constant :=
  [.utf8 (bytesOfText "(Ljava/util/List;)Ljava/util/List;"), .nameAndType 21 24, .methodRef 9 25]

def loosePool (added : List Constant) : Pool where
  statedSize := UInt16.ofNat (24 + added.length)
  entries := (looseEntries ++ added).toArray

def loose (code : CodeAttribute) (added : List Constant) : ClassFile where
  minor := 0
  major := 53
  pool := loosePool added
  access := 1
  thisClass := 2
  superClass := 0
  interfaces := []
  fields := []
  methods := [⟨8, 3, 4, [⟨5, code.bytes⟩]⟩]
  attributes := []

def looseUnit (code : CodeAttribute) (added : List Constant) (b : Body) : ClassUnit where
  name := "Loose"
  file := loose code added
  methods := [⟨"call", "()V", 8, some (0, b), false⟩]
  loaded := (loose code added).bytes
  dirty := false

def looseCode : CodeAttribute := ⟨1, 1, [0xb8, 0, 20, 0xb8, 0, 23, 0xb1], [], []⟩

def looseBody : Body where
  maxStack := 1
  maxLocals := 1
  scratchBase := 1
  nodes := [⟨some 0, .invokestatic 20⟩, ⟨some 3, .invokestatic 23⟩, ⟨some 6, .vreturn⟩]
  loadedLength := 7
  guards := []
  tables := []

def looseTarget : Target := ⟨"java/util/ArrayList", "add", none⟩

/-- The only call that goes to the target as long as the class is as it was loaded. -/
def looseSite : CallSite where
  methodIndex := 0
  methodName := "call"
  position := 0
  offset := 0
  kind := .static
  index := 20
  owner := "java/util/ArrayList"
  name := "add"
  descriptor := "(Ljava/lang/Object;)Ljava/util/List;"
  type := ⟨[.reference "java/lang/Object"], .reference "java/util/List"⟩
  line := none

/-- What the first call gives way to. -/
def looseLowered : List Instruction := Recipe.singleCode 1 7 13 17 26

def loosePatched : Body := { looseBody.splice 0 looseLowered with maxStack := 3, maxLocals := 2 }

def looseWritten : CodeAttribute :=
  ⟨3, 2, [0x4c, 0xbb, 0, 7, 0x59, 0x04, 0xb7, 0, 13, 0x59, 0x2b, 0xb6, 0, 17, 0x57, 0xb8, 0, 26,
    0xb8, 0, 23, 0xb1], [], []⟩

def looseReloaded : Body where
  maxStack := 3
  maxLocals := 2
  scratchBase := 2
  nodes := [⟨some 0, .astore 1⟩, ⟨some 1, .new 7⟩, ⟨some 4, .dup⟩, ⟨some 5, .pushInt 1⟩,
    ⟨some 6, .invokespecial 13⟩, ⟨some 9, .dup⟩, ⟨some 10, .aload 1⟩, ⟨some 11, .invokevirtual 17⟩,
    ⟨some 14, .pop⟩, ⟨some 15, .invokestatic 26⟩, ⟨some 18, .invokestatic 23⟩,
    ⟨some 21, .vreturn⟩]
  loadedLength := 22
  guards := []
  tables := []

/-- The call of `add` that the replacement makes. -/
def looseInserted : CallSite where
  methodIndex := 0
  methodName := "call"
  position := 7
  offset := 11
  kind := .virtual
  index := 17
  owner := "java/util/ArrayList"
  name := "add"
  descriptor := "(Ljava/lang/Object;)Z"
  type := ⟨[.reference "java/lang/Object"], .boolean⟩
  line := none

/-- The second call, once the pool has a descriptor for it. -/
def looseCompleted : CallSite where
  methodIndex := 0
  methodName := "call"
  position := 10
  offset := 18
  kind := .static
  index := 23
  owner := "java/util/ArrayList"
  name := "add"
  descriptor := "(Ljava/util/List;)Ljava/util/List;"
  type := ⟨[.reference "java/util/List"], .reference "java/util/List"⟩
  line := none

/-- The pool lacks a method, whose descriptor becomes the entry that the second call refers to. -/
theorem loosePool_lower : (Recipe.fixedArity.materialize 1).lower (loosePool []) 1 =
    (loosePool looseAdded, .ok looseLowered) := by
  have hlist : (loosePool []).internClass Recipe.arrayList = (loosePool [], 7) := by decide +kernel
  have hinit : (loosePool []).internMethod Recipe.initSized.owner Recipe.initSized.name
      Recipe.initSized.descriptor false = (loosePool [], 13) := by decide +kernel
  have hadd : (loosePool []).internMethod Recipe.add.owner Recipe.add.name Recipe.add.descriptor false =
      (loosePool [], 17) := by decide +kernel
  exact Recipe.lower_single (by decide) rfl hlist hinit hadd (by decide +kernel)

theorem looseUnit_patch :
    (looseUnit looseCode [] looseBody).patch looseSite (Recipe.fixedArity.materialize 1) =
      (((looseUnit looseCode [] looseBody).withPool (loosePool looseAdded)).withBody 0 loosePatched,
        .ok ()) := by
  have hprofile : (Recipe.fixedArity.materialize 1).stackProfile = .ok ⟨3, 1⟩ := by cbv
  exact patch_eq_ok rfl hprofile loosePool_lower (by decide +kernel)

theorem sites_loose :
    Target.sites (looseTarget.scan (looseUnit looseCode [] looseBody)) = [looseSite] ∧
      Target.sites (looseTarget.scan (looseUnit looseWritten looseAdded looseReloaded)) =
        [looseInserted, looseCompleted] := by
  decide +kernel

theorem looseUnit_loaded :
    ofBytes (loose looseCode []).bytes = .ok (looseUnit looseCode [] looseBody) ∧
      ofBytes (loose looseWritten looseAdded).bytes =
        .ok (looseUnit looseWritten looseAdded looseReloaded) := by
  decide +kernel

theorem looseUnit_toBytes :
    (((looseUnit looseCode [] looseBody).withPool (loosePool looseAdded)).withBody 0
      loosePatched).toBytes = .ok (loose looseWritten looseAdded).bytes := by
  decide +kernel

theorem substitute_unsettled_loose :
    ofBytes (loose looseCode []).bytes = .ok (looseUnit looseCode [] looseBody) ∧
      NoEmptySlot (looseUnit looseCode [] looseBody).pool.entries.toList ∧
      (∀ callee ∈ Recipe.factories, ¬looseTarget.Names callee) ∧
      ∃ v records events out w,
        (looseUnit looseCode [] looseBody).substitute looseTarget 10 = ⟨v, .ok records, events⟩ ∧
        v.toBytes = .ok out ∧ ofBytes out = .ok w ∧
        (Target.sites (looseTarget.scan (looseUnit looseCode [] looseBody))).filter
          (CallSite.rejected 10) = [] ∧
        Target.sites (looseTarget.scan w) = [looseInserted, looseCompleted] ∧
        ∀ v' events', w.substitute looseTarget 10 ≠ ⟨v', .ok [], events'⟩ := by
  obtain ⟨hsites, hsites'⟩ := sites_loose
  obtain ⟨hload, hload'⟩ := looseUnit_loaded
  have hreplacement : looseSite.replacement 10 = .ok (Recipe.fixedArity.materialize 1) := by cbv
  have hcompleted : looseCompleted.rejected 10 = false := by
    exact CallSite.not_rejected_iff.mpr ⟨Recipe.fixedArity.materialize 1, by cbv⟩
  obtain ⟨records, events, h⟩ :=
    exists_substitute_singleton hsites hreplacement looseUnit_patch
  refine ⟨hload, ?_, ?_, _, records, events, _, _, h, looseUnit_toBytes, hload', ?_, hsites', ?_⟩
  · intro k hk
    have hmem := List.mem_of_getElem? hk
    simp [looseUnit, loose, loosePool, looseEntries, pool] at hmem
  · simp [Recipe.factories, Target.Names, looseTarget, Recipe.asList, Recipe.emptyList,
      Recipe.unmodifiableList]
  · rw [hsites, List.filter_singleton, CallSite.not_rejected_iff.mpr ⟨_, hreplacement⟩]
    rfl
  · intro v' events' h'
    obtain ⟨-, changes, hrecords, hfully⟩ := fullySubstituted_of_substitute h'
    obtain ⟨c, hc, -⟩ := hfully.complete looseCompleted (by rw [hsites']; simp) hcompleted
    rw [eq_comm, List.map_eq_nil_iff] at hrecords
    rw [hrecords] at hc
    cases hc

end ClassUnit

end Retrofit
