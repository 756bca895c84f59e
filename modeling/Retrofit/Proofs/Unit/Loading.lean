import Retrofit.Proofs.ClassFile
import Retrofit.Proofs.Pool.Naming
import Retrofit.Proofs.Outcome
import Retrofit.Unit

/-!
# Loaded methods and classes

What a method or a class was loaded from, step by step. A method is loaded in the same way with a
pool that has grown.
-/

namespace Retrofit

/-- The code that a member is loaded with: none without a `Code` attribute, and else the first one
taken apart. -/
inductive MethodUnit.LoadsCode (p : Pool) (m : Member) : Option (Nat × Body) → Prop
  | none (hposition : m.attributePosition? p "Code" = none) : LoadsCode p m none
  | some {i : Nat} {a : Attribute} {c : CodeAttribute} {b : Body}
      (hposition : m.attributePosition? p "Code" = some i) (hattribute : m.attributes[i]? = some a)
      (hread : CodeAttribute.read.run a.info = .ok c) (hdecode : Body.decode p c = .ok b) :
      LoadsCode p m (some (i, b))

/-- What it takes to load a method from a member of a class file. -/
structure MethodUnit.Loads (p : Pool) (m : Member) (u : MethodUnit) : Prop where
  name : p.text? m.name = some u.name
  descriptor : p.text? m.descriptor = some u.descriptor
  access_eq : u.access = m.access
  code : LoadsCode p m u.code
  modified : u.modified = false

namespace MethodUnit

theorem loads_of_decode {p : Pool} {m : Member} {u : MethodUnit} (h : decode p m = .ok u) :
    Loads p m u := by
  unfold decode at h
  split at h
  rotate_left
  · cases h
  rename_i name hname
  split at h
  rotate_left
  · cases h
  rename_i descriptor hdescriptor
  dsimp only at h
  split at h
  · rename_i hposition
    cases h
    exact ⟨hname, hdescriptor, rfl, .none hposition, rfl⟩
  · rename_i i hposition
    split at h
    · rename_i hattribute
      obtain ⟨hlt, -⟩ := List.findIdx?_eq_some_iff_getElem.mp hposition
      exact absurd hattribute (by simp [hlt])
    · rename_i a hattribute
      split at h
      · rename_i b hb
        cases h
        obtain ⟨c, hread, hdecode⟩ := bind_eq_ok.mp hb
        exact ⟨hname, hdescriptor, rfl, .some hposition hattribute hread hdecode, rfl⟩
      · cases h

theorem decode_of_loads {p : Pool} {m : Member} {u : MethodUnit} (h : Loads p m u) :
    decode p m = .ok u := by
  obtain ⟨hname, hdescriptor, haccess, hcode, hmodified⟩ := h
  obtain ⟨name, descriptor, access, code, modified⟩ := u
  dsimp only at *
  subst haccess hmodified
  unfold decode
  rw [hname, hdescriptor]
  cases hcode with
  | none hposition =>
      rw [hposition]
      rfl
  | some hposition hattribute hread hdecode =>
      have hbody := bind_eq_ok.mpr ⟨_, hread, hdecode⟩
      dsimp only
      rw [hposition]
      dsimp only
      rw [hattribute]
      dsimp only
      rw [hbody]
      rfl

/-- A method is loaded in the same way with a pool that has grown by plain texts. -/
theorem Loads.grow {p q : Pool} (hgrows : p.Grows (Constant.Interned PlainText) q) {m : Member}
    {u : MethodUnit} (h : Loads p m u) : Loads q m u := by
  have hnames := hgrows.sameNames
  obtain ⟨hname, hdescriptor, haccess, hcode, hmodified⟩ := h
  obtain ⟨name, descriptor, access, code, modified⟩ := u
  refine ⟨hgrows.text?_eq hname, hgrows.text?_eq hdescriptor, haccess, ?_, hmodified⟩
  cases hcode with
  | none hposition =>
      rw [← hnames.attributePosition?_eq] at hposition
      exact .none hposition
  | some hposition hattribute hread hdecode =>
      rw [← hnames.attributePosition?_eq] at hposition
      rw [← hnames.decodeBody_eq] at hdecode
      exact .some hposition hattribute hread hdecode

end MethodUnit

namespace ClassUnit

/-- What it takes to load a class. -/
structure Loads (bytes : List UInt8) (u : ClassUnit) : Prop where
  file : ClassFile.decode bytes = .ok u.file
  methods : List.Forall₂ (MethodUnit.Loads u.pool) u.file.methods u.methods
  name : u.file.thisName? = some u.name
  loaded_eq : u.loaded = bytes
  dirty_eq : u.dirty = false

theorem loads_of_ofBytes {bytes : List UInt8} {u : ClassUnit} (h : ofBytes bytes = .ok u) :
    Loads bytes u := by
  obtain ⟨⟨file, methods⟩, hdecode, h⟩ := bind_eq_ok.mp h
  dsimp only at h
  split at h
  · rename_i name hname
    cases h
    unfold decode at hdecode
    dsimp only at hdecode
    split at hdecode
    · rename_i hfile
      obtain ⟨_, hfile', hdecode⟩ := bind_eq_ok.mp hdecode
      cases hfile'
      obtain ⟨_, hmethods, hdecode⟩ := bind_eq_ok.mp hdecode
      cases hdecode
      refine ⟨hfile, ?_, hname, rfl, rfl⟩
      exact (mapM_eq_ok.mp hmethods).imp fun _ _ => MethodUnit.loads_of_decode
    · cases hdecode
  · cases h

theorem ofBytes_of_loads {bytes : List UInt8} {u : ClassUnit} (h : Loads bytes u) :
    ofBytes bytes = .ok u := by
  obtain ⟨hfile, hmethods, hname, hloaded, hdirty⟩ := h
  obtain ⟨name, file, methods, loaded, dirty⟩ := u
  dsimp only at *
  subst hloaded hdirty
  have hdecoded : file.methods.mapM (MethodUnit.decode file.pool) = .ok methods := by
    rw [mapM_eq_ok]
    exact hmethods.imp fun _ _ => MethodUnit.decode_of_loads
  have hdecode : decode loaded = .ok (file, methods) := by
    unfold decode
    rw [hfile]
    exact bind_eq_ok.mpr ⟨file, rfl, bind_eq_ok.mpr ⟨methods, hdecoded, rfl⟩⟩
  refine bind_eq_ok.mpr ⟨_, hdecode, ?_⟩
  dsimp only
  rw [hname]
  rfl

end ClassUnit

end Retrofit
