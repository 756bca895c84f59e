import Retrofit.Proofs.Unit.Rewriting

/-!
# Rewritten classes are written out and loaded again

A rewritten class can be written out, and what was written is loaded again with nothing changed but
the code of the modified methods and new entries at the end of the pool. This needs every new `Code`
attribute to fit the 32-bit length before it. For a class of less than a gigabyte it always does; in a
class of almost four gigabytes the length may leave no room for a replacement.
-/

namespace Retrofit

open Reader

/-! ### One member -/

namespace Member

/-- The member with other content for the attribute at position `i`. -/
def withInfo (m : Member) (i : Nat) (info : List UInt8) : Member :=
  { m with attributes := m.attributes.modify i fun a => { a with info } }

variable {m : Member} {info : List UInt8}

theorem getElem?_withInfo {i : Nat} {a : Attribute} (h : m.attributes[i]? = some a) :
    (m.withInfo i info).attributes[i]? = some { a with info } := by
  rw [withInfo, List.getElem?_modify, h]
  simp

/-- Attributes are found by their names. -/
theorem attributePosition?_withInfo (i : Nat) (p : Pool) (name : String) :
    (m.withInfo i info).attributePosition? p name = m.attributePosition? p name := by
  unfold attributePosition? withInfo
  dsimp only
  induction m.attributes generalizing i with
  | nil => rw [List.modify_nil]
  | cons a as ih =>
      cases i with
      | zero => rw [List.modify_zero_cons, List.findIdx?_cons, List.findIdx?_cons]
      | succ i => rw [List.modify_succ_cons, List.findIdx?_cons, List.findIdx?_cons, ih]

theorem Fits.withInfo (hm : m.Fits) (hlen : info.length < 2 ^ 32) (i : Nat) :
    (m.withInfo i info).Fits := by
  constructor
  · rw [Member.withInfo, List.length_modify]
    exact hm.attributes
  · intro a ha
    obtain ⟨k, hk, rfl⟩ := List.mem_iff_getElem.mp ha
    simp only [Member.withInfo, List.getElem_modify]
    split
    · exact hlen
    · exact hm.fits _ (List.getElem_mem _)

end Member

/-! ### One method -/

/-- A modified method's code can be written behind a 32-bit length. -/
def MethodUnit.CodeFits (e : MethodUnit) : Prop :=
  ∀ b c, e.modified = true → e.body? = some b → b.encode = .ok c → c.bytes.length < 2 ^ 32

/-- The member `m`, whose method was edited to `e`, and what both are loaded as again. -/
inductive MethodUnit.Reloaded (q : Pool) (m : Member) (e : MethodUnit) :
    Member → MethodUnit → Prop
  /-- A method that was not modified is the same as before. -/
  | untouched (hmodified : e.modified = false) : Reloaded q m e m e
  /-- Of a modified method the `Code` attribute holds what its body is laid out to, and nothing else
  has changed. -/
  | rewritten {i : Nat} {a : Attribute} {b b' : Body} {c : CodeAttribute}
      (hmodified : e.modified = true) (hcode : e.code = some (i, b))
      (hposition : m.attributePosition? q "Code" = some i) (hattribute : m.attributes[i]? = some a)
      (henc : b.encode = .ok c) (hread : CodeAttribute.read.run c.bytes = .ok c)
      (hdecode : Body.decode q c = .ok b') :
      Reloaded q m e (m.withInfo i c.bytes) { e with code := some (i, b'), modified := false }

namespace MethodUnit

variable {p q : Pool} {m m' : Member} {u e : MethodUnit}

theorem toMember_of_unmodified (m : Member) (h : e.modified = false) : e.toMember m = .ok m := by
  unfold toMember
  split
  · rw [h]
    rfl
  · rfl

theorem toMember_of_modified (m : Member) (h : e.modified = true) {i : Nat} {b : Body}
    {c : CodeAttribute} (hcode : e.code = some (i, b)) (henc : b.encode = .ok c) :
    e.toMember m = .ok (m.withInfo i c.bytes) := by
  unfold toMember
  rw [hcode]
  dsimp only
  rw [if_pos h, henc]
  rfl

/-- A rewritten method can be written out. -/
theorem Rewritten.exists_toMember (h : u.Rewritten e) (hload : u.modified = false) (m : Member) :
    ∃ m', e.toMember m = .ok m' := by
  cases h with
  | same => exact ⟨m, toMember_of_unmodified m hload⟩
  | edited _ _ henc => exact ⟨_, toMember_of_modified m rfl rfl henc⟩

/-- What was written of a rewritten method is loaded again. -/
theorem Rewritten.exists_reloaded (h : u.Rewritten e)
    (hgrows : p.Grows (Constant.Interned PlainText) q) (hm : m.Fits) (hload : Loads p m u)
    (hfits : e.CodeFits) (hwrite : e.toMember m = .ok m') :
    m'.Fits ∧ ∃ u', Loads q m' u' ∧ Reloaded q m e m' u' := by
  cases h with
  | same =>
      rw [toMember_of_unmodified m hload.modified] at hwrite
      cases hwrite
      exact ⟨hm, u, hload.grow hgrows, .untouched hload.modified⟩
  | @edited i b₀ b c hcode hedited henc =>
      have hlen : c.bytes.length < 2 ^ 32 := hfits b c rfl rfl henc
      rw [toMember_of_modified m rfl rfl henc] at hwrite
      cases hwrite
      have hnames := hgrows.sameNames
      have hgrown := hload.grow hgrows
      have hold := hload.code
      rw [hcode] at hold
      cases hold with
      | @some _ a code _ hposition hattribute hread hdecode =>
          obtain ⟨_, rest, _, rfl, hcodeFits⟩ := CodeAttribute.givesBack.run hread
          have hc := Body.fits_of_encode hdecode hedited henc hcodeFits hlen
          have hread' := (CodeAttribute.takes hc).run
          obtain ⟨b', hb'⟩ := Body.exists_decode_of_encode hdecode hedited henc hnames
          rw [← hnames.attributePosition?_eq] at hposition
          refine ⟨hm.withInfo hlen i, { u with code := some (i, b'), modified := false },
            ⟨hgrown.name, hgrown.descriptor, hgrown.access_eq, ?_, rfl⟩,
            .rewritten rfl rfl hposition hattribute henc hread' hb'⟩
          rw [← Member.attributePosition?_withInfo i] at hposition
          exact .some hposition (Member.getElem?_withInfo hattribute) hread' hb'

/-- The member was loaded to a method that then was rewritten to `e`. -/
def Derived (p : Pool) (m : Member) (e : MethodUnit) : Prop :=
  m.Fits ∧ ∃ u, Loads p m u ∧ u.Rewritten e

theorem exists_written {ms : List Member} {es : List MethodUnit}
    (h : List.Forall₂ (Derived p) ms es) :
    ∃ ms', List.Forall₂ (fun x m' => x.2.toMember x.1 = .ok m') (ms.zip es) ms' := by
  induction h with
  | nil => exact ⟨[], .nil⟩
  | @cons m e ms es hm _ ih =>
      obtain ⟨-, u, hload, hrewritten⟩ := hm
      obtain ⟨m', hm'⟩ := hrewritten.exists_toMember hload.modified m
      obtain ⟨ms', hms'⟩ := ih
      exact ⟨m' :: ms', .cons hm' hms'⟩

/-- What was written of all the methods is loaded again. -/
theorem exists_reloaded {ms ms' : List Member} {es : List MethodUnit}
    (h : List.Forall₂ (Derived p) ms es) (hgrows : p.Grows (Constant.Interned PlainText) q)
    (hfits : ∀ e ∈ es, e.CodeFits)
    (hwrite : List.Forall₂ (fun x m' => x.2.toMember x.1 = .ok m') (ms.zip es) ms') :
    (∀ m' ∈ ms', m'.Fits) ∧ ∃ us', List.Forall₂ (Loads q) ms' us' ∧
      List.Forall₂ (fun x y => Reloaded q x.1 x.2 y.1 y.2) (ms.zip es) (ms'.zip us') := by
  induction h generalizing ms' with
  | nil =>
      cases hwrite
      exact ⟨by simp, [], .nil, .nil⟩
  | @cons m e ms es hm _ ih =>
      obtain ⟨hfit, u, hload, hrewritten⟩ := hm
      obtain ⟨he, hes⟩ := List.forall_mem_cons.mp hfits
      cases hwrite with
      | @cons _ m' _ ms' hm' hms' =>
          obtain ⟨hfit', u', hload', hreloaded⟩ :=
            hrewritten.exists_reloaded hgrows hfit hload he hm'
          obtain ⟨hfits', us', hloads', hreloaded'⟩ := ih hes hms'
          exact ⟨List.forall_mem_cons.mpr ⟨hfit', hfits'⟩, u' :: us', .cons hload' hloads',
            .cons hreloaded hreloaded'⟩

end MethodUnit

/-! ### The pool -/

/-- Interned constants take one slot each, and they can be written if their texts can. -/
theorem Constant.Interned.slots {T : List UInt8 → Prop} (hT : ∀ bs, T bs → bs.length < 65536)
    {cs : List Constant} (h : ∀ c ∈ cs, Interned T c) : Slots cs := by
  induction cs with
  | nil => exact .nil
  | cons c cs ih =>
      obtain ⟨hc, hcs⟩ := List.forall_mem_cons.mp h
      cases c with
      | utf8 bs => exact .narrow rfl (by simp) (hT bs hc) (ih hcs)
      | classInfo | nameAndType | methodRef | interfaceMethodRef =>
          exact .narrow rfl (by simp) trivial (ih hcs)
      | _ => cases hc

/-- A pool that could be written still can be after it has grown and its size was brought in line. -/
theorem Pool.Grows.fits_sync {p q : Pool} (h : p.Grows (Constant.Interned PlainText) q)
    (hslots : Slots p.entries.toList) (hsize : q.entries.size ≤ 65534) : q.sync.Fits := by
  constructor
  · obtain ⟨cs, hq, hcs⟩ := h
    show Slots q.entries.toList
    rw [hq, Array.toList_append]
    exact hslots.append (Constant.Interned.slots (fun _ h => h.fits) hcs)
  · exact toNat_succ_size hsize

/-! ### The whole class -/

namespace ClassUnit

variable {u v w : ClassUnit} {bytes : List UInt8}

/-- The class `u` as it was loaded, edited to `v`, and what `v` is loaded as again. -/
structure Reloaded (u v w : ClassUnit) : Prop where
  name_eq : w.name = u.name
  pool : u.pool.entries.toList <+: w.pool.entries.toList
  /-- But for the pool and the methods the class file is the same. -/
  file_eq : w.file = { u.file with pool := w.pool, methods := w.file.methods }
  /-- No method was added or lost. -/
  count : v.methods.length = u.file.methods.length ∧
    w.file.methods.length = u.file.methods.length ∧ w.methods.length = u.file.methods.length
  methods : List.Forall₂ (fun x y => MethodUnit.Reloaded w.pool x.1 x.2 y.1 y.2)
    (u.file.methods.zip v.methods) (w.file.methods.zip w.methods)

/-- The code of every modified method can be written behind a 32-bit length. -/
def CodeFits (v : ClassUnit) : Prop := ∀ e ∈ v.methods, e.CodeFits

/-- A body of a loaded class is a `Code` attribute taken apart. -/
theorem Loads.exists_decode (h : Loads bytes u) {m : MethodUnit} (hm : m ∈ u.methods) {b : Body}
    (hb : m.body? = some b) : ∃ c, Body.decode u.pool c = .ok b := by
  obtain ⟨⟨i, b⟩, hcode, rfl⟩ := Option.map_eq_some_iff.mp hb
  obtain ⟨k, hk, rfl⟩ := List.mem_iff_getElem.mp hm
  have hload := (h.methods.get (by rw [h.methods.length_eq]; exact hk) hk).code
  rw [List.get_eq_getElem, List.get_eq_getElem, hcode] at hload
  cases hload with
  | some _ _ _ hdecode => exact ⟨_, hdecode⟩

theorem Loads.sound (h : Loads bytes u) : ∀ m ∈ u.methods, ∀ b, m.body? = some b → b.Sound := by
  intro m hm b hb
  obtain ⟨c, hdecode⟩ := h.exists_decode hm hb
  exact Body.sound_of_decode hdecode

theorem Rewritten.derived (h : u.Rewritten v) (hload : Loads bytes u)
    (hfits : ∀ m ∈ u.file.methods, m.Fits) :
    List.Forall₂ (MethodUnit.Derived u.pool) u.file.methods v.methods := by
  have hloads := (List.forall₂_and_left _ _).mpr ⟨hfits, hload.methods⟩
  exact forall₂_trans (fun m e e' hm he => ⟨hm.1, e, hm.2, he⟩) hloads h.methods

theorem Rewritten.toBytes_eq (h : u.Rewritten v) (hdirty : v.dirty = true) {ms : List Member}
    (hwrite : List.Forall₂ (fun x m' => x.2.toMember x.1 = .ok m') (u.file.methods.zip v.methods) ms) :
    v.toBytes = .ok { u.file with methods := ms, pool := v.pool.sync }.bytes := by
  have hmethods : v.file.methods = u.file.methods := by rw [h.file_eq]
  have hfile : { v.file with methods := ms, pool := v.file.pool.sync } =
      { u.file with methods := ms, pool := v.pool.sync } := by
    rw [h.file_eq]
  unfold toBytes
  rw [if_pos hdirty, hmethods]
  refine bind_eq_ok.mpr ⟨ms, ?_, congrArg (fun f : ClassFile => Except.ok f.bytes) hfile⟩
  rw [mapM_eq_ok]
  refine hwrite.imp fun x m' hm' => ?_
  dsimp only
  rw [hm']

/-- What was written of a rewritten class is loaded again, with the pool that was written. -/
theorem Rewritten.exists_reloaded (h : u.Rewritten v) (hload : Loads bytes u)
    (hfile : u.file.Fits) (hslots : Slots u.pool.entries.toList)
    (hsize : v.pool.entries.size ≤ 65534) (hfits : v.CodeFits) {ms : List Member}
    (hwrite : List.Forall₂ (fun x m' => x.2.toMember x.1 = .ok m') (u.file.methods.zip v.methods) ms) :
    ∃ w, ofBytes ({ u.file with methods := ms, pool := v.pool.sync } : ClassFile).bytes = .ok w ∧
      u.Reloaded v w ∧ w.pool = v.pool.sync := by
  have hgrows : u.pool.Grows (Constant.Interned PlainText) v.pool.sync := h.grows
  have hderived := h.derived hload hfile.methods.2
  obtain ⟨hms, us, hus, hreloaded⟩ :=
    MethodUnit.exists_reloaded hderived hgrows hfits hwrite
  have hcount : v.methods.length = u.file.methods.length := hderived.length_eq.symm
  have hcount' : ms.length = u.file.methods.length := by
    rw [← hwrite.length_eq, List.length_zip, hcount, Nat.min_self]
  have hfile' : ({ u.file with methods := ms, pool := v.pool.sync } : ClassFile).Fits :=
    ⟨hfile.interfaces, hfile.fields, ⟨by rw [hcount']; exact hfile.methods.1, hms⟩,
      hfile.attributes⟩
  have hread := ClassFile.takes (h.grows.fits_sync hslots hsize) hfile'
  refine ⟨⟨u.name, { u.file with methods := ms, pool := v.pool.sync }, us, _, false⟩,
    ofBytes_of_loads ⟨hread.run, hus, ?_, rfl, rfl⟩, ⟨rfl, ?_, rfl,
    ⟨hcount, hcount', by rw [← hus.length_eq, hcount']⟩, hreloaded⟩, rfl⟩
  · exact hgrows.className?_eq hload.name
  · obtain ⟨cs, hcs, -⟩ := hgrows
    refine ⟨cs, ?_⟩
    show u.pool.entries.toList ++ cs = v.pool.sync.entries.toList
    rw [hcs, Array.toList_append]

/-- What is loaded again has no `Code` attribute that is too long. -/
theorem codeFits_of_reloaded (hload : Loads bytes w) (h : u.Reloaded v w) : v.CodeFits := by
  intro e he b c hmodified hb henc
  have hzip : (u.file.methods.zip v.methods).map Prod.snd = v.methods := by
    apply List.map_snd_zip
    exact Nat.le_of_eq h.count.1
  rw [← hzip] at he
  obtain ⟨⟨m, e⟩, hmem, rfl⟩ := List.mem_map.mp he
  obtain ⟨⟨m', e'⟩, hmem', hreloaded⟩ := exists_of_forall₂ h.methods hmem
  obtain ⟨bs, rest, -, hfile, -, -⟩ := ClassFile.gives_read.run hload.file
  have hfits := hfile.methods.2 m' (List.of_mem_zip hmem').1
  obtain ⟨⟨i, b⟩, hcode, rfl⟩ := Option.map_eq_some_iff.mp hb
  dsimp only at hmodified hcode hreloaded henc
  cases hreloaded with
  | untouched hunmodified =>
      rw [hmodified] at hunmodified
      cases hunmodified
  | rewritten _ hcode' _ hattribute henc' =>
      rw [hcode, Option.some_inj, Prod.mk.injEq] at hcode'
      obtain ⟨rfl, rfl⟩ := hcode'
      rw [henc] at henc'
      cases henc'
      exact hfits.fits _ (List.mem_of_getElem? (Member.getElem?_withInfo hattribute))

/-- Below a gigabyte no new `Code` attribute is too long. -/
theorem Rewritten.codeFits (h : u.Rewritten v) (hload : Loads bytes u)
    (hlen : bytes.length < 2 ^ 30) : v.CodeFits := by
  intro e he b c hmodified hb henc
  obtain ⟨bs, rest, rfl, hfile, -, hmethods⟩ := ClassFile.gives_read.run hload.file
  obtain ⟨m, hm, -, m₀, hload₀, hrewritten⟩ :=
    exists_of_forall₂ (h.derived hload hfile.methods.2).flip he
  cases hrewritten with
  | same =>
      rw [hload₀.modified] at hmodified
      cases hmodified
  | @edited i b₀ b' c' hcode hedited _ =>
      cases hb
      have hold := hload₀.code
      rw [hcode] at hold
      cases hold with
      | @some _ a code _ _ hattribute hread hdecode =>
          obtain ⟨_, tail, hinfo, rfl, -⟩ := CodeAttribute.givesBack.run hread
          have hle := Body.length_bytes_le_of_encode hdecode hedited henc
          have hshort := Member.length_info_le hm (List.mem_of_getElem? hattribute)
          rw [hinfo, List.length_append] at hshort
          rw [List.length_append] at hlen
          omega

/-- A patched class can be written out, and what was written is loaded again with the pool that was
written. -/
theorem exists_emitted (hload : Loads bytes u) (hempty : NoEmptySlot u.pool.entries.toList)
    (hrun : Relation.TransGen PatchStep u v) : u.Rewritten v ∧ ∃ out, v.toBytes = .ok out ∧
      (v.CodeFits → ∃ w, ofBytes out = .ok w ∧ u.Reloaded v w ∧ w.pool = v.pool.sync) := by
  obtain ⟨hrewritten, hdirty, hsize⟩ := rewritten_of_patches hload.sound hrun
  obtain ⟨bs, rest, -, hfile, ⟨bs', hspells⟩, -⟩ := ClassFile.gives_read.run hload.file
  have hslots := Pool.slots_of_spells hspells hempty
  obtain ⟨ms, hms⟩ := MethodUnit.exists_written (hrewritten.derived hload hfile.methods.2)
  refine ⟨hrewritten, _, hrewritten.toBytes_eq hdirty hms, fun hfits => ?_⟩
  exact hrewritten.exists_reloaded hload hfile hslots hsize hfits hms

/-- However often calls of a loaded class were patched, the class can be written out. What was written
is loaded again, with nothing changed but the code of the modified methods and the end of the pool,
exactly if every new `Code` attribute fits its 32-bit length, and for a class of less than a gigabyte
they all do. -/
theorem toBytes_reloaded (hload : ofBytes bytes = .ok u)
    (hempty : NoEmptySlot u.pool.entries.toList) (hrun : Relation.TransGen PatchStep u v) :
    ∃ out, v.toBytes = .ok out ∧ ((∃ w, ofBytes out = .ok w ∧ u.Reloaded v w) ↔ v.CodeFits) ∧
      (bytes.length < 2 ^ 30 → v.CodeFits) := by
  replace hload := loads_of_ofBytes hload
  obtain ⟨hrewritten, out, hout, hreload⟩ := exists_emitted hload hempty hrun
  refine ⟨out, hout, ?_, hrewritten.codeFits hload⟩
  constructor
  · rintro ⟨w, hw, hreloaded⟩
    exact codeFits_of_reloaded (loads_of_ofBytes hw) hreloaded
  · intro hfits
    obtain ⟨w, hw, hreloaded, -⟩ := hreload hfits
    exact ⟨w, hw, hreloaded⟩

/-! ### A method with two calls -/

/-- The constants of a class that calls a list factory, together with all that its replacement calls. -/
def pairPool : Pool where
  statedSize := 28
  entries := #[.utf8 (bytesOfText "Pair"), .classInfo 1, .utf8 (bytesOfText "call"),
    .utf8 (bytesOfText "()V"), .utf8 (bytesOfText "Code"),
    .utf8 (bytesOfText "java/util/ArrayList"), .classInfo 6,
    .utf8 (bytesOfText "java/util/Collections"), .classInfo 8,
    .utf8 (bytesOfText "<init>"), .utf8 (bytesOfText "(I)V"), .nameAndType 10 11, .methodRef 7 12,
    .utf8 (bytesOfText "add"), .utf8 (bytesOfText "(Ljava/lang/Object;)Z"), .nameAndType 14 15,
    .methodRef 7 16,
    .utf8 (bytesOfText "unmodifiableList"),
    .utf8 (bytesOfText "(Ljava/util/List;)Ljava/util/List;"), .nameAndType 18 19, .methodRef 9 20,
    .utf8 (bytesOfText "java/util/List"), .classInfo 22, .utf8 (bytesOfText "of"),
    .utf8 (bytesOfText "(Ljava/lang/Object;)Ljava/util/List;"), .nameAndType 24 25,
    .interfaceMethodRef 23 26]

/-- A class whose only method makes a list of one element and drops it, twice. -/
def pair : ClassFile where
  minor := 0
  major := 53
  pool := pairPool
  access := 1
  thisClass := 2
  superClass := 0
  interfaces := []
  fields := []
  methods := [⟨9, 3, 4, [⟨5, (⟨1, 0, [0x01, 0xb8, 0, 27, 0x57, 0x01, 0xb8, 0, 27, 0x57, 0xb1], [],
    []⟩ : CodeAttribute).bytes⟩]⟩]
  attributes := []

def pairBody : Body where
  maxStack := 1
  maxLocals := 0
  scratchBase := 0
  nodes := [⟨some 0, .pushNull⟩, ⟨some 1, .invokestatic 27⟩, ⟨some 4, .pop⟩, ⟨some 5, .pushNull⟩,
    ⟨some 6, .invokestatic 27⟩, ⟨some 9, .pop⟩, ⟨some 10, .vreturn⟩]
  loadedLength := 11
  guards := []
  tables := []

def pairUnit : ClassUnit where
  name := "Pair"
  file := pair
  methods := [⟨"call", "()V", 9, some (0, pairBody), false⟩]
  loaded := pair.bytes
  dirty := false

def pairSite (position offset : Nat) : CallSite where
  methodIndex := 0
  methodName := "call"
  position := position
  offset := offset
  kind := .static
  index := 27
  owner := "java/util/List"
  name := "of"
  descriptor := "(Ljava/lang/Object;)Ljava/util/List;"
  type := ⟨[.reference "java/lang/Object"], .reference "java/util/List"⟩
  line := none

/-- What each of the calls gives way to. -/
def pairLowered : List Instruction := Recipe.singleCode 0 7 13 17 21

/-- The body with its second call replaced. -/
def pairBodyOnce : Body := { pairBody.splice 4 pairLowered with maxStack := 3, maxLocals := 1 }

/-- The body with both calls replaced. -/
def pairBodyTwice : Body := { pairBodyOnce.splice 1 pairLowered with maxStack := 5, maxLocals := 1 }

/-- The class with its second call replaced. -/
def pairOnce : ClassUnit := pairUnit.withBody 0 pairBodyOnce

/-- The class with both calls replaced. -/
def pairTwice : ClassUnit := pairOnce.withBody 0 pairBodyTwice

theorem ofBytes_pair : ofBytes pair.bytes = .ok pairUnit := by decide +kernel

theorem length_pair : pair.bytes.length < 2 ^ 30 := by decide +kernel

theorem noEmptySlot_pairUnit : NoEmptySlot pairUnit.pool.entries.toList := by
  intro k hk
  have hmem := List.mem_of_getElem? hk
  simp [pairUnit, pair, pairPool, pool] at hmem

/-- The pool has all that the replacement names. -/
theorem pairPool_lower :
    (Recipe.fixedArity.materialize 1).lower pairPool 0 = (pairPool, .ok pairLowered) := by
  have hlist : pairPool.internClass Recipe.arrayList = (pairPool, 7) := by decide +kernel
  have hinit : pairPool.internMethod Recipe.initSized.owner Recipe.initSized.name
      Recipe.initSized.descriptor false = (pairPool, 13) := by decide +kernel
  have hadd : pairPool.internMethod Recipe.add.owner Recipe.add.name Recipe.add.descriptor false =
      (pairPool, 17) := by decide +kernel
  exact Recipe.lower_single (by decide) rfl hlist hinit hadd (by decide +kernel)

theorem pairSite_replacement (position offset : Nat) :
    (pairSite position offset).replacement 10 = .ok (Recipe.fixedArity.materialize 1) := by
  have htype : (pairSite position offset).replacement 10 =
      Replacement.forCall .static (pairSite 0 0).type 10 := rfl
  rw [htype]
  cbv

theorem pairUnit_patch :
    pairUnit.patch (pairSite 4 6) (Recipe.fixedArity.materialize 1) = (pairOnce, .ok ()) ∧
      pairOnce.patch (pairSite 1 1) (Recipe.fixedArity.materialize 1) = (pairTwice, .ok ()) := by
  have hprofile : (Recipe.fixedArity.materialize 1).stackProfile = .ok ⟨3, 1⟩ := by cbv
  exact ⟨patch_eq_ok (u := pairUnit) rfl hprofile pairPool_lower (by decide +kernel),
    patch_eq_ok (u := pairOnce) rfl hprofile pairPool_lower (by decide +kernel)⟩

theorem pairTwice_patched : Relation.TransGen PatchStep pairUnit pairTwice := by
  obtain ⟨hsecond, hfirst⟩ := pairUnit_patch
  have hone : PatchStep pairUnit pairOnce :=
    ⟨_, _, 10, _, pairSite_replacement 4 6, hsecond⟩
  exact .tail (.single hone) ⟨_, _, 10, _, pairSite_replacement 1 1, hfirst⟩

/-- The second call is replaced before the first one, which comes to lie in front of what was put in. -/
theorem toBytes_reloaded_pair :
    ofBytes pair.bytes = .ok pairUnit ∧ NoEmptySlot pairUnit.pool.entries.toList ∧
      Relation.TransGen PatchStep pairUnit pairTwice ∧ ∃ out w, pairTwice.toBytes = .ok out ∧
        ofBytes out = .ok w ∧ pairUnit.Reloaded pairTwice w := by
  obtain ⟨out, hout, hreload, hfits⟩ :=
    toBytes_reloaded ofBytes_pair noEmptySlot_pairUnit pairTwice_patched
  obtain ⟨w, hw, hreloaded⟩ := hreload.mpr (hfits length_pair)
  exact ⟨ofBytes_pair, noEmptySlot_pairUnit, pairTwice_patched, out, w, hout, hw, hreloaded⟩

/-! ### A class of four gigabytes -/

/-- The code with two calls. -/
def twoCalls : List UInt8 := [0x01, 0xb8, 0, 27, 0x57, 0x01, 0xb8, 0, 27, 0x57, 0xb1]

/-- The code with the second call replaced. -/
def oneCall : List UInt8 := [0x01, 0xb8, 0, 27, 0x57, 0x01, 0x4b, 0xbb, 0, 7, 0x59, 0x04, 0xb7, 0, 13,
  0x59, 0x2a, 0xb6, 0, 17, 0x57, 0xb8, 0, 21, 0x57, 0xb1]

/-- Code with one nested attribute of no known kind, which holds `size` zeros. -/
def ladenCode (maxStack maxLocals : UInt16) (code : List UInt8) (size : Nat) : CodeAttribute :=
  ⟨maxStack, maxLocals, code, [], [⟨1, List.replicate size 0⟩]⟩

def ladenMember (size : Nat) : Member := ⟨9, 3, 4, [⟨5, (ladenCode 1 0 twoCalls size).bytes⟩]⟩

def laden (size : Nat) : ClassFile := { pair with methods := [ladenMember size] }

def ladenBody (size : Nat) : Body :=
  { pairBody with tables := [⟨1, .other (List.replicate size 0)⟩] }

def ladenUnit (size : Nat) : ClassUnit where
  name := "Pair"
  file := laden size
  methods := [⟨"call", "()V", 9, some (0, ladenBody size), false⟩]
  loaded := (laden size).bytes
  dirty := false

/-- The body with its second call replaced. -/
def ladenBodyOnce (size : Nat) : Body :=
  { (ladenBody size).splice 4 pairLowered with maxStack := 3, maxLocals := 1 }

theorem length_ladenCode (maxStack maxLocals : UInt16) (code : List UInt8) (size : Nat) :
    (ladenCode maxStack maxLocals code size).bytes.length = code.length + size + 18 := by
  have hguards : (countedBytes Guard.bytes []).length = 2 := rfl
  have hnested : (countedBytes Attribute.bytes [⟨1, List.replicate size 0⟩]).length = size + 8 := by
    rw [countedBytes, List.flatMap_singleton, List.length_append, Attribute.length_bytes,
      List.length_replicate, Bytes.length_ofUInt16]
    omega
  unfold ladenCode
  rw [CodeAttribute.length_bytes, hguards, hnested]
  dsimp only
  omega

theorem decode_ladenCode (size : Nat) :
    Body.decode pairPool (ladenCode 1 0 twoCalls size) = .ok (ladenBody size) := by
  have hcode : Code.decode twoCalls = .ok [(0, .pushNull), (1, .invokestatic 27), (4, .pop),
      (5, .pushNull), (6, .invokestatic 27), (9, .pop), (10, .vreturn)] := by
    decide +kernel
  exact bind_eq_ok.mpr ⟨_, hcode, rfl⟩

theorem ofBytes_laden {size : Nat} (h : size + 29 < 2 ^ 32) :
    ofBytes (laden size).bytes = .ok (ladenUnit size) := by
  obtain ⟨hload, -, hname⟩ := loads_of_ofBytes ofBytes_pair
  obtain ⟨_, _, -, hfile, ⟨_, hspells⟩, -⟩ := ClassFile.gives_read.run hload
  have hlen : (ladenCode 1 0 twoCalls size).bytes.length < 2 ^ 32 := by
    have hcode : twoCalls.length = 11 := rfl
    rw [length_ladenCode, hcode]
    omega
  have hcode : (ladenCode 1 0 twoCalls size).Fits :=
    CodeAttribute.fits_of_length hlen Nat.ofNat_pos Nat.one_lt_ofNat
  have hloads : MethodUnit.Loads pairPool (ladenMember size)
      ⟨"call", "()V", 9, some (0, ladenBody size), false⟩ :=
    ⟨rfl, rfl, rfl, .some rfl rfl (CodeAttribute.takes hcode).run (decode_ladenCode size), rfl⟩
  have hmember : (ladenMember size).Fits := ⟨Nat.one_lt_ofNat, List.forall_mem_singleton.mpr hlen⟩
  have hfits : (laden size).Fits :=
    ⟨hfile.interfaces, hfile.fields, ⟨Nat.one_lt_ofNat, List.forall_mem_singleton.mpr hmember⟩,
      hfile.attributes⟩
  have hpool : pairPool.Fits := ⟨Pool.slots_of_spells hspells noEmptySlot_pairUnit, by decide⟩
  exact ofBytes_of_loads ⟨(ClassFile.takes hpool hfits).run, .cons hloads .nil, hname, rfl, rfl⟩

theorem ladenUnit_patch (size : Nat) :
    (ladenUnit size).patch (pairSite 4 6) (Recipe.fixedArity.materialize 1) =
      ((ladenUnit size).withBody 0 (ladenBodyOnce size), .ok ()) := by
  have hprofile : (Recipe.fixedArity.materialize 1).stackProfile = .ok ⟨3, 1⟩ := by cbv
  have hbody : (ladenBody size).patch 4 (Recipe.fixedArity.materialize 1) ⟨3, 1⟩ pairLowered =
      .ok (ladenBodyOnce size) := rfl
  exact patch_eq_ok (u := ladenUnit size) rfl hprofile pairPool_lower hbody

/-- The replacement makes the code fifteen bytes longer. -/
theorem not_codeFits_laden {size : Nat} (h : 2 ^ 32 ≤ size + 44) :
    ¬((ladenUnit size).withBody 0 (ladenBodyOnce size)).CodeFits := by
  intro hfits
  have hencode : (ladenBodyOnce size).encode = .ok (ladenCode 3 1 oneCall size) := rfl
  have hlt := hfits _ List.mem_cons_self _ _ rfl rfl hencode
  have hcode : oneCall.length = 26 := rfl
  rw [length_ladenCode, hcode] at hlt
  omega

/-- A class can be loaded and patched though the 32-bit length of its code has no room for the
replacement. What is written then is not loaded as the patched class. -/
theorem toBytes_not_reloaded :
    ofBytes (laden (2 ^ 32 - 30)).bytes = .ok (ladenUnit (2 ^ 32 - 30)) ∧
      NoEmptySlot (ladenUnit (2 ^ 32 - 30)).pool.entries.toList ∧
      ∃ v, Relation.TransGen PatchStep (ladenUnit (2 ^ 32 - 30)) v ∧ ∃ out, v.toBytes = .ok out ∧
        ¬∃ w, ofBytes out = .ok w ∧ (ladenUnit (2 ^ 32 - 30)).Reloaded v w := by
  have hload : ofBytes (laden (2 ^ 32 - 30)).bytes = .ok (ladenUnit (2 ^ 32 - 30)) :=
    ofBytes_laden (by decide)
  have hpatched : Relation.TransGen PatchStep (ladenUnit (2 ^ 32 - 30)) _ :=
    .single ⟨_, _, 10, _, pairSite_replacement 4 6, ladenUnit_patch _⟩
  obtain ⟨-, out, hout, -⟩ := exists_emitted (loads_of_ofBytes hload) noEmptySlot_pairUnit hpatched
  refine ⟨hload, noEmptySlot_pairUnit, _, hpatched, out, hout, ?_⟩
  rintro ⟨w, hw, hreloaded⟩
  exact not_codeFits_laden (by decide) (codeFits_of_reloaded (loads_of_ofBytes hw) hreloaded)

end ClassUnit

end Retrofit
