import Mathlib
import Arith64.Proofs.Decimal

/-!
# Texts as bytes

Places in a text are bytes of its UTF-8 form. Every character that can stand in
a lexeme, or between two, has one byte of its own, and no byte of any other
character is one of those. So a run of such characters is a run of bytes.
-/

namespace Arith64

/-- The bytes of some characters, one character after the other. -/
def encode (cs : List Char) : List UInt8 := cs.flatMap String.utf8EncodeChar

/-- The bytes of a text. -/
def utf8 (text : String) : List UInt8 := text.toUTF8.data.toList

theorem utf8_eq_encode (text : String) : utf8 text = encode text.toList := by
  unfold utf8 encode
  rw [String.toUTF8_eq_toByteArray, ← String.utf8Encode_toList, List.utf8Encode,
    List.toList_data_toByteArray]

theorem utf8_ofList (cs : List Char) : utf8 (String.ofList cs) = encode cs := by
  rw [utf8_eq_encode, String.toList_ofList]

theorem utf8_inj {s t : String} (h : utf8 s = utf8 t) : s = t := by
  unfold utf8 at h
  simp only [String.toUTF8_eq_toByteArray] at h
  exact String.toByteArray_inj.mp (ByteArray.ext (Array.toList_inj.mp h))

theorem length_utf8 (text : String) : (utf8 text).length = text.utf8ByteSize := by
  simp [utf8]

@[simp]
theorem encode_nil : encode [] = [] := rfl

theorem encode_cons (c : Char) (cs : List Char) :
    encode (c :: cs) = String.utf8EncodeChar c ++ encode cs := by
  simp [encode]

theorem encode_append (cs ds : List Char) : encode (cs ++ ds) = encode cs ++ encode ds := by
  simp [encode]

theorem utf8_append (s t : String) : utf8 (s ++ t) = utf8 s ++ utf8 t := by
  rw [utf8_eq_encode, utf8_eq_encode, utf8_eq_encode, String.toList_append, encode_append]

theorem drop_encode {bytes : List UInt8} {pos : Nat} {cs ds : List Char}
    (hdrop : bytes.drop pos = encode (cs ++ ds)) (hpos : pos ≤ bytes.length)
    (hlength : (encode cs).length = cs.length) :
    bytes.drop (pos + cs.length) = encode ds ∧ pos + cs.length ≤ bytes.length := by
  rw [encode_append] at hdrop
  have htotal := congrArg List.length hdrop
  rw [List.length_drop, List.length_append] at htotal
  rw [← List.drop_drop, hdrop, ← hlength, List.drop_left]
  exact ⟨rfl, by omega⟩

/-! ## The first byte of a character -/

theorem first_of_encode {c : Char} {cs : List Char} {b : UInt8} {rest : List UInt8}
    (h : encode (c :: cs) = b :: rest) : ∃ bs, String.utf8EncodeChar c = b :: bs := by
  obtain ⟨d, bs, hd⟩ := List.exists_cons_of_ne_nil (String.utf8EncodeChar_ne_nil (c := c))
  rw [encode_cons, hd, List.cons_append] at h
  obtain ⟨rfl, -⟩ := List.cons.inj h
  exact ⟨bs, hd⟩

theorem utf8EncodeChar_of_ascii {c : Char} (h : c.toNat < 128) :
    String.utf8EncodeChar c = [UInt8.ofNat c.toNat] := by
  unfold String.utf8EncodeChar
  exact if_pos (Nat.le_of_lt_succ h)

theorem utf8EncodeChar_of_wide {c : Char} (h : 128 ≤ c.toNat) :
    ∃ b bs, String.utf8EncodeChar c = b :: bs ∧ 128 ≤ b.toNat := by
  have hlead : ∀ n m : Nat, 0x80 ≤ m → n < 0x40 → n + m < 256 →
      128 ≤ (UInt8.ofNat (n + m)).toNat := by
    intro n m hm hn hlt
    rw [UInt8.toNat_ofNat', Nat.mod_eq_of_lt hlt]
    omega
  have hascii : ¬ c.val.toNat ≤ 0x7f := fun hle => absurd (Nat.lt_of_lt_of_le h hle) (by omega)
  unfold String.utf8EncodeChar
  simp only [if_neg hascii]
  split
  · exact ⟨_, _, rfl, hlead _ _ (by omega) (by omega) (by omega)⟩
  · split
    · exact ⟨_, _, rfl, hlead _ _ (by omega) (by omega) (by omega)⟩
    · exact ⟨_, _, rfl, hlead _ _ (by omega) (by omega) (by omega)⟩

theorem takeWhile_bytes {q : UInt8 → Bool} {run tail : List UInt8}
    (hrun : ∀ b ∈ run, q b = true) (htail : ∀ b ∈ tail.head?, q b = false) :
    (run ++ tail).takeWhile q = run := by
  rw [List.takeWhile_append_of_pos hrun]
  cases tail with
  | nil => simp
  | cons b tail => simp [htail b rfl]

/-! ## Classes -/

/-- A function of characters and one of bytes that agree on ASCII and are `x` on all else. -/
structure SameCodes {α : Type} (x : α) (f : Char → α) (g : UInt8 → α) : Prop where
  ascii : ∀ n < 128, g (UInt8.ofNat n) = f (Char.ofNat n)
  char : ∀ c : Char, 128 ≤ c.toNat → f c = x
  byte : ∀ b : UInt8, 128 ≤ b.toNat → g b = x

namespace SameCodes

variable {α : Type} {x : α} {f : Char → α} {g : UInt8 → α} {p p' : Char → Bool}
  {q q' : UInt8 → Bool} {c : Char} {cs run : List Char} {bytes tail : List UInt8}

theorem first (h : SameCodes x f g) {b : UInt8} {bs : List UInt8}
    (hc : String.utf8EncodeChar c = b :: bs) : g b = f c := by
  by_cases hascii : c.toNat < 128
  · rw [utf8EncodeChar_of_ascii hascii] at hc
    obtain ⟨rfl, -⟩ := List.cons.inj hc
    rw [h.ascii _ hascii, Char.ofNat_toNat]
  · obtain ⟨b', bs', hwide, hb⟩ := utf8EncodeChar_of_wide (Nat.le_of_not_lt hascii)
    obtain ⟨rfl, -⟩ := List.cons.inj (hc.symm.trans hwide)
    rw [h.byte b hb, h.char c (Nat.le_of_not_lt hascii)]

theorem encodeChar (h : SameCodes x f g) (hc : f c ≠ x) :
    String.utf8EncodeChar c = [UInt8.ofNat c.toNat] := by
  apply utf8EncodeChar_of_ascii
  by_contra hwide
  exact hc (h.char c (Nat.le_of_not_lt hwide))

theorem or (h : SameCodes false p q) (h' : SameCodes false p' q') :
    SameCodes false (fun c => p c || p' c) (fun b => q b || q' b) := by
  refine ⟨?_, ?_, ?_⟩
  · intro n hn
    rw [h.ascii n hn, h'.ascii n hn]
  · intro c hc
    rw [h.char c hc, h'.char c hc]
    rfl
  · intro b hb
    rw [h.byte b hb, h'.byte b hb]
    rfl

/-! ## Runs of a class -/

theorem singleton_length (h : SameCodes x f g) (hc : f c ≠ x) :
    (encode [c]).length = [c].length := by
  rw [encode_cons, h.encodeChar hc]
  rfl

theorem encode_run (h : SameCodes false p q) (hrun : ∀ c ∈ run, p c = true) :
    encode run = run.map fun c => UInt8.ofNat c.toNat := by
  induction run with
  | nil => rfl
  | cons c run ih =>
    rw [encode_cons, h.encodeChar (by simp [hrun c List.mem_cons_self]),
      ih fun d hd => hrun d (List.mem_cons_of_mem c hd)]
    rfl

theorem length_encode (h : SameCodes false p q) (hrun : ∀ c ∈ run, p c = true) :
    (encode run).length = run.length := by
  rw [h.encode_run hrun, List.length_map]

theorem all_encode (h : SameCodes false p q) (hrun : ∀ c ∈ run, p c = true) :
    ∀ b ∈ encode run, q b = true := by
  rw [h.encode_run hrun, List.forall_mem_map]
  intro c hc
  rw [h.first (h.encodeChar (by simp [hrun c hc])), hrun c hc]

theorem stops_encode (h : SameCodes false p q) (hstop : StopsRun p cs) :
    ∀ b ∈ (encode cs).head?, q b = false := by
  cases cs with
  | nil => simp
  | cons c cs =>
    obtain ⟨b, bs, hb⟩ := List.exists_cons_of_ne_nil (String.utf8EncodeChar_ne_nil (c := c))
    rw [encode_cons, hb]
    rintro d ⟨⟩
    rw [h.first hb, hstop c rfl]

theorem takeWhile_encode (h : SameCodes false p q) (cs : List Char) :
    (encode cs).takeWhile q = encode (cs.takeWhile p) := by
  induction cs with
  | nil => rfl
  | cons c cs ih =>
    obtain ⟨b, bs, hb⟩ := List.exists_cons_of_ne_nil (String.utf8EncodeChar_ne_nil (c := c))
    have hclass : q b = p c := h.first hb
    by_cases hc : p c = true
    · have hbyte := h.encodeChar (ne_false_of_eq_true hc)
      obtain ⟨rfl, rfl⟩ := List.cons.inj (hbyte.symm.trans hb)
      rw [encode_cons, hbyte, List.takeWhile_cons_of_pos hc, encode_cons, hbyte,
        List.singleton_append, List.takeWhile_cons_of_pos (hclass.trans hc), ih,
        List.singleton_append]
    · rw [List.takeWhile_cons_of_neg hc, encode_cons, hb, List.cons_append,
        List.takeWhile_cons_of_neg (by rwa [hclass]), encode_nil]

theorem eq_encode (h : SameCodes false p q) (htext : encode (c :: cs) = bytes ++ tail)
    (hne : bytes ≠ []) (hall : ∀ b ∈ bytes, q b = true) (htail : ∀ b ∈ tail.head?, q b = false) :
    p c = true ∧ bytes = encode (c :: cs.takeWhile p) := by
  have htake : bytes = encode ((c :: cs).takeWhile p) := by
    rw [← h.takeWhile_encode, htext, takeWhile_bytes hall htail]
  by_cases hc : p c = true
  · rw [List.takeWhile_cons_of_pos hc] at htake
    exact ⟨hc, htake⟩
  · rw [List.takeWhile_cons_of_neg hc] at htake
    exact absurd htake hne

end SameCodes

end Arith64
