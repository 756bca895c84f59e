import Mathlib.Data.String.Basic
import Retrofit.Proofs.Descriptor
import Retrofit.Proofs.Outcome
import Retrofit.Proofs.Pool.Naming

/-!
# Types at byte positions

A type is found at a byte position of a text exactly if the bytes from there on are those of its
descriptor. A descriptor starts with a letter of one byte, which never stands inside a character, and
characters are told apart by their bytes, so a descriptor that is found among the bytes is found among
the characters. A reader that goes by bytes, and cuts class names out of the text at byte positions,
therefore cuts at edges of characters only.
-/

namespace Retrofit

/-! ### Characters and their bytes -/

/-- The bytes of characters in UTF-8. -/
def utf8Bytes (cs : List Char) : List UInt8 := cs.flatMap String.utf8EncodeChar

@[simp] theorem utf8Bytes_append (cs ds : List Char) :
    utf8Bytes (cs ++ ds) = utf8Bytes cs ++ utf8Bytes ds := List.flatMap_append

theorem bytesOfText_eq (text : String) : bytesOfText text = utf8Bytes text.toList := by
  obtain ⟨cs, rfl⟩ := text.exists_eq_ofList
  simp [bytesOfText, utf8Bytes, List.utf8Encode]

theorem toByteArray_utf8Bytes (cs : List Char) : (utf8Bytes cs).toByteArray = cs.utf8Encode := rfl

theorem length_utf8Bytes (cs : List Char) : (utf8Bytes cs).length = String.utf8Len cs := by
  induction cs with
  | nil => rfl
  | cons c cs ih =>
      rw [utf8Bytes, List.flatMap_cons, List.length_append, String.length_utf8EncodeChar,
        String.utf8Len_cons, Nat.add_comm]
      exact congrArg (· + c.utf8Size) ih

/-- Bytes of characters in front of others are those of the first characters. -/
theorem exists_of_utf8Bytes_append {cs ds : List Char} {bs : List UInt8}
    (h : utf8Bytes cs ++ bs = utf8Bytes ds) : ∃ rest, ds = cs ++ rest ∧ utf8Bytes rest = bs := by
  have harray : cs.utf8Encode ++ bs.toByteArray = ds.utf8Encode := by
    rw [← toByteArray_utf8Bytes, ← toByteArray_utf8Bytes, ← h, List.toByteArray_append]
  obtain ⟨rest, rfl⟩ := List.isPrefix_of_utf8Encode_append_eq_utf8Encode _ harray
  rw [utf8Bytes_append] at h
  exact ⟨rest, rfl, (List.append_cancel_left h).symm⟩

/-! ### Edges of characters -/

/-- The byte position is in front of a character of the text or at its end. -/
def Edge (text : String) (position : Nat) : Prop := (⟨position⟩ : String.Pos.Raw).IsValid text

instance (text : String) (position : Nat) : Decidable (Edge text position) :=
  inferInstanceAs (Decidable ((⟨position⟩ : String.Pos.Raw).IsValid text))

theorem edge_iff {text : String} {position : Nat} :
    Edge text position ↔
      ∃ front back, text.toList = front ++ back ∧ String.utf8Len front = position := by
  unfold Edge
  rw [String.Pos.Raw.isValid_iff_exists_append]
  constructor
  · rintro ⟨front, back, rfl, hposition⟩
    refine ⟨front.toList, back.toList, String.toList_append, ?_⟩
    rw [String.utf8Len_toList]
    exact (congrArg String.Pos.Raw.byteIdx hposition).symm
  · rintro ⟨front, back, htext, rfl⟩
    refine ⟨String.ofList front, String.ofList back, ?_, ?_⟩
    · rw [← String.ofList_append, ← htext, String.ofList_toList]
    · rw [String.rawEndPos_ofList]

/-- A byte without its highest bit stands for a character by itself. -/
theorem edge_of_ascii {text : String} {position : Nat} {b : UInt8}
    (h : (bytesOfText text)[position]? = some b) (hb : b &&& 0x80 = 0) : Edge text position := by
  obtain ⟨hlt, hget⟩ := List.getElem?_eq_some_iff.mp h
  rw [length_bytesOfText] at hlt
  rw [← hget] at hb
  exact String.Pos.Raw.isValid_iff_isUTF8FirstByte.mpr (Or.inr ⟨hlt, Or.inl hb⟩)

namespace FieldType

theorem utf8Width_eq (cs : List Char) : utf8Width cs = String.utf8Len cs := by
  have hfold (n : Nat) :
      cs.foldl (fun n c => n + c.utf8Size) n = n + String.utf8Len cs := by
    induction cs generalizing n with
    | nil => rfl
    | cons c cs ih =>
        rw [List.foldl_cons, ih, String.utf8Len_cons]
        omega
  rw [utf8Width, hfold, Nat.zero_add]

/-- Dropping bytes leaves the characters that start at an edge. -/
theorem dropBytes?_eq_some_iff {n : Nat} {cs back : List Char} :
    dropBytes? n cs = some back ↔ ∃ front, cs = front ++ back ∧ String.utf8Len front = n := by
  constructor
  · intro h
    fun_induction dropBytes? n cs with
    | case1 cs =>
        cases h
        exact ⟨[], rfl, rfl⟩
    | case2 n => cases h
    | case3 n c cs hle ih =>
        obtain ⟨front, rfl, hfront⟩ := ih h
        refine ⟨c :: front, rfl, ?_⟩
        rw [String.utf8Len_cons, hfront]
        omega
    | case4 n c cs hlt => cases h
  · rintro ⟨front, rfl, rfl⟩
    induction front with
    | nil => exact dropBytes?.eq_1 _
    | cons c front ih =>
        have hpos := c.utf8Size_pos
        obtain ⟨n, hn⟩ := Nat.exists_eq_add_one_of_ne_zero
          (show String.utf8Len (c :: front) ≠ 0 by rw [String.utf8Len_cons]; omega)
        rw [hn, List.cons_append, dropBytes?, ← hn, String.utf8Len_cons,
          if_pos (Nat.le_add_left _ _), Nat.add_sub_cancel]
        exact ih

/-- What is read at an edge is read off the characters behind it. -/
theorem parseAt?_eq {text : String} {front cs : List Char} (htext : text.toList = front ++ cs) :
    parseAt? text (String.utf8Len front) =
      (parse? cs).map fun (t, back) => (t, text.utf8ByteSize - utf8Width back) := by
  have hdrop : dropBytes? (String.utf8Len front) text.toList = some cs :=
    dropBytes?_eq_some_iff.mpr ⟨front, htext, rfl⟩
  rw [parseAt?, hdrop, Option.bind_eq_bind, Option.bind_some]
  cases parse? cs <;> rfl

/-- A type is found where its descriptor stands among the characters. -/
theorem parseAt?_eq_some_iff {text : String} {position next : Nat} {t : FieldType} :
    parseAt? text position = some (t, next) ↔ t.Writable ∧ ∃ front back,
      text.toList = front ++ (t.render ++ back) ∧ String.utf8Len front = position ∧
        next = position + String.utf8Len t.render := by
  have hnext {front back : List Char} (htext : text.toList = front ++ (t.render ++ back)) :
      text.utf8ByteSize - utf8Width back = String.utf8Len front + String.utf8Len t.render := by
    rw [utf8Width_eq, ← String.utf8Len_toList, htext, String.utf8Len_append, String.utf8Len_append]
    omega
  constructor
  · intro h
    obtain ⟨cs, hdrop, -⟩ := Option.bind_eq_some_iff.mp h
    obtain ⟨front, htext, rfl⟩ := dropBytes?_eq_some_iff.mp hdrop
    rw [parseAt?_eq htext] at h
    obtain ⟨⟨t', back⟩, hparse, hpair⟩ := Option.map_eq_some_iff.mp h
    cases hpair
    obtain ⟨ht, rfl⟩ := parse?_eq_some_iff.mp hparse
    exact ⟨ht, front, back, htext, rfl, hnext htext⟩
  · rintro ⟨ht, front, back, htext, rfl, rfl⟩
    rw [parseAt?_eq htext, parse?_eq_some_iff.mpr ⟨ht, rfl⟩, Option.map_some]
    exact congrArg (fun n => some (t, n)) (hnext htext)

/-- The first letter of a descriptor has a byte of its own. -/
theorem utf8Bytes_render (t : FieldType) :
    ∃ b bs, utf8Bytes t.render = b :: bs ∧ b &&& 0x80 = 0 := by
  cases t <;> exact ⟨_, _, rfl, rfl⟩

/-- The bytes of a descriptor stand between two positions of a text exactly if its characters do. -/
theorem bytes_eq_render_iff {text : String} {position next : Nat} {t : FieldType}
    (hlt : position < next) (hle : next ≤ text.utf8ByteSize) :
    ((bytesOfText text).drop position).take (next - position) = utf8Bytes t.render ↔
      ∃ front back, text.toList = front ++ (t.render ++ back) ∧
        String.utf8Len front = position ∧ next = position + String.utf8Len t.render := by
  have hdrop {front back : List Char} (htext : text.toList = front ++ back) :
      (bytesOfText text).drop (String.utf8Len front) = utf8Bytes back := by
    rw [bytesOfText_eq, htext, utf8Bytes_append, ← length_utf8Bytes, List.drop_left]
  constructor
  · intro h
    obtain ⟨b, bs, hrender, hb⟩ := t.utf8Bytes_render
    have hfirst : (bytesOfText text)[position]? = some b := by
      have hhead := congrArg (·[0]?) h
      rw [hrender] at hhead
      simpa [List.getElem?_take, Nat.sub_pos_of_lt hlt] using hhead
    obtain ⟨front, cs, htext, rfl⟩ := edge_iff.mp (edge_of_ascii hfirst hb)
    rw [hdrop htext] at h
    have hsplit : utf8Bytes t.render ++ (utf8Bytes cs).drop (next - String.utf8Len front) =
        utf8Bytes cs := by
      rw [← h, List.take_append_drop]
    obtain ⟨back, rfl, -⟩ := exists_of_utf8Bytes_append hsplit
    have hlength := congrArg List.length h
    rw [List.length_take, length_utf8Bytes, length_utf8Bytes, String.utf8Len_append] at hlength
    rw [← String.utf8Len_toList, htext, String.utf8Len_append, String.utf8Len_append] at hle
    exact ⟨front, back, htext, rfl, by omega⟩
  · rintro ⟨front, back, htext, rfl, rfl⟩
    rw [hdrop htext, utf8Bytes_append, Nat.add_sub_cancel_left, ← length_utf8Bytes, List.take_left]

/-! ### Reading by bytes -/

/-- The text between two byte positions. A cut that is not at an edge of a character fails at its
position. -/
def cut (text : String) (start stop : Nat) : Except Nat String :=
  if ¬Edge text start then .error start
  else if ¬Edge text stop then .error stop
  else .ok (String.Pos.Raw.extract text ⟨start⟩ ⟨stop⟩)

/-- How many bytes stand in front of the first semicolon of a text. -/
def semicolon? (text : String) : Option Nat :=
  if ';' ∈ text.toList then some (utf8Width (text.toList.takeWhile (· ≠ ';'))) else none

/-- The type whose descriptor is a single letter, by the byte of the letter. -/
def ofLetter? (b : UInt8) : Option FieldType :=
  if b = 0x42 then some byte
  else if b = 0x43 then some char
  else if b = 0x44 then some double
  else if b = 0x46 then some float
  else if b = 0x49 then some int
  else if b = 0x4a then some long
  else if b = 0x53 then some short
  else if b = 0x5a then some boolean
  else if b = 0x56 then some void
  else none

/-- Read what follows an `L` at a byte position. All of it is cut out to find the semicolon, and then
the class name is. -/
def scanReference (text : String) (start : Nat) : Except Nat (Option (FieldType × Nat)) := do
  let rest ← cut text start text.utf8ByteSize
  match semicolon? rest with
  | none => return none
  | some length =>
    let name ← cut text start (start + length)
    return some (reference name, start + length + 1)

/-- Read a type at a byte position by looking at bytes. -/
def scanAt (text : String) (position : Nat) : Except Nat (Option (FieldType × Nat)) :=
  match _hbyte : (bytesOfText text)[position]? with
  | none => .ok none
  | some b =>
    match ofLetter? b with
    | some t => .ok (some (t, position + 1))
    | none =>
      if b = 0x4c then scanReference text (position + 1)
      else if b = 0x5b then do
        let element ← scanAt text (position + 1)
        return element.map fun (t, next) => (array t, next)
      else .ok none
  termination_by text.utf8ByteSize - position
  decreasing_by
    have hlt := (List.getElem?_eq_some_iff.mp _hbyte).1
    rw [length_bytesOfText] at hlt
    omega

theorem cut_eq_ok {text : String} {front mid back : List Char}
    (htext : text.toList = front ++ (mid ++ back)) :
    cut text (String.utf8Len front) (String.utf8Len front + String.utf8Len mid) =
      .ok (String.ofList mid) := by
  have hstart : Edge text (String.utf8Len front) := edge_iff.mpr ⟨front, _, htext, rfl⟩
  have hstop : Edge text (String.utf8Len front + String.utf8Len mid) :=
    edge_iff.mpr ⟨front ++ mid, back, by rw [htext, List.append_assoc], String.utf8Len_append ..⟩
  have hofList : text = String.ofList (front ++ mid ++ back) := by
    rw [List.append_assoc, ← htext, String.ofList_toList]
  rw [cut, if_neg (not_not.mpr hstart), if_neg (not_not.mpr hstop), hofList]
  exact congrArg _ (String.extract_of_valid front mid back)

/-- A character with a byte of its own stands where its byte does. -/
theorem exists_of_byte {text : String} {position : Nat} {b : UInt8} {c : Char}
    (h : (bytesOfText text)[position]? = some b) (hc : String.utf8EncodeChar c = [b])
    (hb : b &&& 0x80 = 0) :
    ∃ front back, text.toList = front ++ c :: back ∧ String.utf8Len front = position := by
  obtain ⟨front, cs, htext, rfl⟩ := edge_iff.mp (edge_of_ascii h hb)
  rw [bytesOfText_eq, htext, utf8Bytes_append, ← length_utf8Bytes,
    List.getElem?_append_right (Nat.le_refl _), Nat.sub_self] at h
  obtain ⟨bs, hbs⟩ : ∃ bs, utf8Bytes cs = b :: bs := by
    cases hcs : utf8Bytes cs with
    | nil => simp [hcs] at h
    | cons b' bs =>
        rw [hcs, List.getElem?_cons_zero, Option.some_inj] at h
        exact ⟨bs, by rw [h]⟩
  have hfront : utf8Bytes [c] ++ bs = utf8Bytes cs := by
    rw [utf8Bytes, List.flatMap_singleton, hc, hbs, List.singleton_append]
  obtain ⟨back, rfl, -⟩ := exists_of_utf8Bytes_append hfront
  exact ⟨front, back, htext, rfl⟩

theorem ofLetter?_eq_some {b : UInt8} {t : FieldType} (h : ofLetter? b = some t) :
    t.Writable ∧ b &&& 0x80 = 0 ∧ ∃ c, t.render = [c] ∧ String.utf8EncodeChar c = [b] := by
  unfold ofLetter? at h
  repeat' split at h
  all_goals cases h
  all_goals
    rename_i hb
    cases hb
    exact ⟨trivial, rfl, _, rfl, rfl⟩

/-- A descriptor starts with one of the letters that the reader knows. -/
theorem byte_of_parseAt? {text : String} {position next : Nat} {t : FieldType}
    (h : parseAt? text position = some (t, next)) :
    ∃ b, (bytesOfText text)[position]? = some b ∧
      ((ofLetter? b).isSome ∨ b = 0x4c ∨ b = 0x5b) := by
  obtain ⟨-, front, back, htext, rfl, -⟩ := parseAt?_eq_some_iff.mp h
  obtain ⟨b, bs, hrender, -⟩ := t.utf8Bytes_render
  refine ⟨b, ?_, ?_⟩
  · rw [bytesOfText_eq, htext, utf8Bytes_append, utf8Bytes_append, hrender, ← length_utf8Bytes,
      List.getElem?_append_right (Nat.le_refl _), Nat.sub_self]
    rfl
  · cases t with
    | reference name =>
        cases hrender
        exact Or.inr (Or.inl rfl)
    | array element =>
        cases hrender
        exact Or.inr (Or.inr rfl)
    | _ =>
        cases hrender
        exact Or.inl rfl

theorem semicolon?_cut {name back : List Char} (h : ';' ∉ name) :
    semicolon? (String.ofList (name ++ ';' :: back)) = some (String.utf8Len name) := by
  rw [semicolon?, String.toList_ofList, if_pos (by simp), takeWhile_cut h, utf8Width_eq]

/-- A class name is cut out up to the first semicolon behind the `L`. -/
theorem scanReference_eq {text : String} {front back : List Char}
    (htext : text.toList = front ++ 'L' :: back) :
    scanReference text (String.utf8Len front + 1) = .ok (parseAt? text (String.utf8Len front)) := by
  have hstart : String.utf8Len (front ++ ['L']) = String.utf8Len front + 1 :=
    String.utf8Len_append ..
  have hrest : cut text (String.utf8Len front + 1) text.utf8ByteSize = .ok (String.ofList back) := by
    have hbehind : text.toList = (front ++ ['L']) ++ (back ++ []) := by simp [htext]
    rw [← String.utf8Len_toList, hbehind, String.utf8Len_append, List.append_nil, ← hstart]
    exact cut_eq_ok hbehind
  refine bind_eq_ok.mpr ⟨_, hrest, ?_⟩
  by_cases hsemi : ';' ∈ back
  · obtain ⟨name, rest, rfl, hname⟩ := List.eq_append_cons_of_mem hsemi
    have hcut : cut text (String.utf8Len front + 1) (String.utf8Len front + 1 + String.utf8Len name) =
        .ok (String.ofList name) := by
      have hwhole : text.toList = (front ++ ['L']) ++ (name ++ ';' :: rest) := by simp [htext]
      rw [← hstart]
      exact cut_eq_ok hwhole
    have hparse : parseAt? text (String.utf8Len front) =
        some (reference (String.ofList name), String.utf8Len front + 1 + String.utf8Len name + 1) := by
      refine parseAt?_eq_some_iff.mpr ⟨?_, front, rest, ?_, rfl, ?_⟩
      · rwa [Writable, String.toList_ofList]
      · rw [htext, render, String.toList_ofList]
        simp
      · rw [render, String.toList_ofList, String.utf8Len_cons, String.utf8Len_append]
        show _ = String.utf8Len front + (String.utf8Len name + 1 + 1)
        omega
    rw [semicolon?_cut hname, hparse]
    exact bind_eq_ok.mpr ⟨_, hcut, rfl⟩
  · have hnone : semicolon? (String.ofList back) = none := by
      rw [semicolon?, String.toList_ofList, if_neg hsemi]
    have hdrop : back.dropWhile (· ≠ ';') = [] := by
      rw [List.dropWhile_eq_nil_iff]
      intro c hc
      exact decide_eq_true (ne_of_mem_of_not_mem hc hsemi)
    rw [hnone, parseAt?_eq htext, parse?, hdrop]
    rfl

/-- Reading by bytes never cuts inside a character, and comes to the same types and positions. -/
theorem scanAt_eq (text : String) (position : Nat) :
    scanAt text position = .ok (parseAt? text position) := by
  fun_induction scanAt text position with
  | case1 position hbyte =>
      refine congrArg _ (Option.eq_none_iff_forall_ne_some.mpr ?_).symm
      rintro ⟨t, next⟩ h
      obtain ⟨b, hb, -⟩ := byte_of_parseAt? h
      rw [hbyte] at hb
      cases hb
  | case2 position b hbyte t hletter =>
      obtain ⟨ht, hb, c, hrender, hc⟩ := ofLetter?_eq_some hletter
      obtain ⟨front, back, htext, rfl⟩ := exists_of_byte hbyte hc hb
      have hwidth : String.utf8Len t.render = 1 := by
        rw [hrender, ← length_utf8Bytes, utf8Bytes, List.flatMap_singleton, hc]
        rfl
      refine congrArg _ (parseAt?_eq_some_iff.mpr ⟨ht, front, back, ?_, rfl, ?_⟩).symm
      · rw [htext, hrender]
        rfl
      · rw [hwidth]
  | case3 position hbyte hletter =>
      obtain ⟨front, back, htext, rfl⟩ := exists_of_byte (c := 'L') hbyte rfl rfl
      exact scanReference_eq htext
  | case4 position hbyte hletter hne ih =>
      obtain ⟨front, back, htext, rfl⟩ := exists_of_byte (c := '[') hbyte rfl rfl
      have hnext : text.toList = (front ++ ['[']) ++ back := by rw [htext, List.append_assoc]; rfl
      have hlen : String.utf8Len front + 1 = String.utf8Len (front ++ ['[']) := by
        rw [String.utf8Len_append]
        rfl
      rw [ih, hlen, parseAt?_eq hnext, parseAt?_eq htext, parse?]
      cases parse? back <;> rfl
  | case5 position b hbyte hletter hreference harray =>
      refine congrArg _ (Option.eq_none_iff_forall_ne_some.mpr ?_).symm
      rintro ⟨t, next⟩ h
      obtain ⟨b', hb', hknown⟩ := byte_of_parseAt? h
      rw [hbyte, Option.some_inj] at hb'
      subst hb'
      rw [hletter] at hknown
      rcases hknown with hnone | heq | heq
      · cases hnone
      · exact hreference heq
      · exact harray heq

/-- A type is found at a byte position exactly if the bytes from there to the next position are those of
its descriptor. A reader that goes by bytes finds the same everywhere, and all its cuts are at edges of
characters. -/
theorem parseAt?_inverts_render (text : String) (position : Nat) :
    (∀ t next, parseAt? text position = some (t, next) ↔
      t.Writable ∧ position < next ∧ next ≤ text.utf8ByteSize ∧
        ((bytesOfText text).drop position).take (next - position) =
          bytesOfText (String.ofList t.render)) ∧
      scanAt text position = .ok (parseAt? text position) := by
  refine ⟨fun t next => ?_, scanAt_eq text position⟩
  rw [parseAt?_eq_some_iff, bytesOfText_eq (String.ofList _), String.toList_ofList]
  constructor
  · rintro ⟨ht, front, back, htext, hfront, hnext⟩
    have hpos : 0 < String.utf8Len t.render :=
      Nat.pos_of_ne_zero fun hzero => t.render_ne_nil (String.utf8Len_eq_zero.mp hzero)
    have hsize := congrArg String.utf8Len htext
    rw [String.utf8Len_toList, String.utf8Len_append, String.utf8Len_append] at hsize
    have hlt : position < next := by omega
    have hle : next ≤ text.utf8ByteSize := by omega
    exact ⟨ht, hlt, hle, (bytes_eq_render_iff hlt hle).mpr ⟨front, back, htext, hfront, hnext⟩⟩
  · rintro ⟨ht, hlt, hle, hbytes⟩
    exact ⟨ht, (bytes_eq_render_iff hlt hle).mp hbytes⟩

/-- Behind, and inside, a character of two bytes. -/
example : parseAt? "é[Lé;I" 2 = some (.array (.reference "é"), 7) ∧ parseAt? "éI" 1 = none := by
  constructor <;> cbv

end FieldType

end Retrofit
