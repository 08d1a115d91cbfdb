import ClassScript.Text.Utf8
import Mathlib.Data.List.Infix
import Mathlib.Tactic.SplitIfs

/-! Texts as bytes. Decoding undoes encoding. Where the bytes of a text are cut in two, the bytes at
the cut tell whether it goes through a character; if it does not, the parts are texts themselves. -/
namespace ClassScript.Text

open String (utf8EncodeChar)

theorem toList_loop (bytes : ByteArray) (i : Nat) (read : List UInt8) :
    ByteArray.toList.loop bytes i read = read.reverse ++ bytes.data.toList.drop i := by
  fun_induction ByteArray.toList.loop bytes i read with
  | case1 i read h ih =>
    have hi : i < bytes.data.toList.length := by simpa using h
    rw [ih, List.drop_eq_getElem_cons hi]
    simp [ByteArray.get!, h]
  | case2 i read h =>
    rw [List.drop_of_length_le (by simpa using h)]
    simp

/-- The bytes of a text are those of its characters. -/
theorem encode_eq (text : String) : encode text = text.toList.flatMap utf8EncodeChar := by
  rw [encode, ByteArray.toList, toList_loop, String.toUTF8_eq_toByteArray,
    ← String.utf8Encode_toList, List.utf8Encode, List.toList_data_toByteArray]
  rfl

theorem encode_ofList (chars : List Char) :
    encode (.ofList chars) = chars.flatMap utf8EncodeChar := by
  rw [encode_eq, String.toList_ofList]

@[simp] theorem encode_empty : encode "" = [] := by
  rw [encode_eq]
  rfl

@[simp] theorem encode_append (a b : String) : encode (a ++ b) = encode a ++ encode b := by
  simp [encode_eq]

theorem length_encode_le {a b : String} (h : a.toList <+: b.toList) :
    (encode a).length ≤ (encode b).length := by
  obtain ⟨more, hb⟩ := h
  rw [encode_eq, encode_eq, ← hb, List.flatMap_append, List.length_append]
  omega

theorem length_encode_lt {a b : String} {c : Char} {more : List Char}
    (h : a.toList ++ c :: more = b.toList) : (encode a).length < (encode b).length := by
  have hc := List.length_pos_iff.mpr (String.utf8EncodeChar_ne_nil : utf8EncodeChar c ≠ [])
  rw [encode_eq, encode_eq, ← h, List.flatMap_append, List.flatMap_cons, List.length_append,
    List.length_append]
  omega

theorem continuation_holds {b : UInt8} :
    continuation.holds b = true ↔ 0x80 ≤ b.toNat ∧ b.toNat < 0xC0 := by
  simp only [ByteRange.holds, continuation, Bool.and_eq_true, decide_eq_true_eq,
    UInt8.le_iff_toNat_le, UInt8.reduceToNat]
  omega

/-- A character is a byte of its own below 0x80; else it is a byte from 0xC0 on with bytes behind it
that continue it. -/
theorem encodeChar_cases (c : Char) :
    (c.toNat < 0x80 ∧ utf8EncodeChar c = [.ofNat c.toNat]) ∨
      (0x80 ≤ c.toNat ∧ ∃ first second more, utf8EncodeChar c = first :: second :: more ∧
        0xC0 ≤ first.toNat ∧ ∀ b ∈ second :: more, continuation.holds b = true) := by
  have hvalid : c.toNat.isValidChar := c.valid
  have hmore : ∀ n, continuation.holds (.ofNat (n % 64 + 128)) = true := by
    intro n
    rw [continuation_holds, UInt8.toNat_ofNat']
    omega
  rw [String.utf8EncodeChar.eq_1, Char.toNat_val]
  split_ifs with h1 h2 h3
  · exact .inl ⟨by omega, rfl⟩
  all_goals
    refine .inr ⟨by omega, _, _, _, rfl, ?_, ?_⟩
    · rw [UInt8.toNat_ofNat']
      omega
    · simp only [List.forall_mem_cons, hmore, List.not_mem_nil, false_implies, implies_true,
        and_self]

/-! The first bytes of characters, by the number of bytes that follow them. -/

theorem lead?_alone {n : Nat} (h : n < 0x80) : lead? (.ofNat n) = some (n, []) := by
  have hmod : n % 256 = n := by omega
  simp only [lead?, UInt8.lt_iff_toNat_lt, UInt8.toNat_ofNat', hmod, UInt8.reduceToNat]
  rw [if_pos h]

theorem lead?_pair {n : Nat} (hlow : 0x80 ≤ n) (hhigh : n < 0x800) :
    lead? (.ofNat (n / 64 % 32 + 192)) = some (n / 64, [continuation]) := by
  generalize hb : n / 64 % 32 + 192 = b
  have hmod : b % 256 = b := by omega
  have hbits : n / 64 = b - 0xC0 := by omega
  simp only [lead?, UInt8.lt_iff_toNat_lt, UInt8.toNat_ofNat', hmod, UInt8.reduceToNat, hbits]
  rw [if_neg (by omega), if_neg (by omega), if_pos (by omega)]

/-- The second byte is bounded from below against a form that is too long, and from above against
surrogates. -/
theorem lead?_triple {n : Nat} (hlow : 0x800 ≤ n) (hhigh : n < 0x10000) :
    lead? (.ofNat (n / 4096 % 16 + 224)) =
      some (n / 4096, [if n < 0x1000 then ⟨0xA0, 0xBF⟩
        else if 0xD000 ≤ n ∧ n < 0xE000 then ⟨0x80, 0x9F⟩ else continuation, continuation]) := by
  generalize hb : n / 4096 % 16 + 224 = b
  have hmod : b % 256 = b := by omega
  have hbits : n / 4096 = b - 0xE0 := by omega
  have hlong : b = 0xE0 ↔ n < 0x1000 := by omega
  have hsurrogate : b = 0xED ↔ 0xD000 ≤ n ∧ n < 0xE000 := by omega
  simp only [lead?, UInt8.lt_iff_toNat_lt, ← UInt8.toNat_inj, UInt8.toNat_ofNat', hmod,
    UInt8.reduceToNat, hbits]
  rw [if_neg (by omega), if_neg (by omega), if_neg (by omega), if_pos (by omega)]
  simp only [hlong, hsurrogate]

/-- The second byte is bounded from below against a form that is too long, and from above by the
last code point. -/
theorem lead?_quadruple {n : Nat} (hlow : 0x10000 ≤ n) (hhigh : n < 0x110000) :
    lead? (.ofNat (n / 262144 % 8 + 240)) =
      some (n / 262144, [if n < 0x40000 then ⟨0x90, 0xBF⟩
        else if 0x100000 ≤ n then ⟨0x80, 0x8F⟩ else continuation, continuation, continuation]) := by
  generalize hb : n / 262144 % 8 + 240 = b
  have hmod : b % 256 = b := by omega
  have hbits : n / 262144 = b - 0xF0 := by omega
  have hlong : b = 0xF0 ↔ n < 0x40000 := by omega
  have hlast : b = 0xF4 ↔ 0x100000 ≤ n := by omega
  simp only [lead?, UInt8.lt_iff_toNat_lt, ← UInt8.toNat_inj, UInt8.toNat_ofNat', hmod,
    UInt8.reduceToNat, hbits]
  rw [if_neg (by omega), if_neg (by omega), if_neg (by omega), if_neg (by omega), if_pos (by omega)]
  simp only [hlong, hlast]

/-- A byte that has to follow and does gives six more bits of the code point. -/
theorem follow_cons {r : ByteRange} {bits count n : Nat} {ranges : List ByteRange}
    {rest : List UInt8} (hlow : r.low.toNat ≤ n % 64 + 128) (hhigh : n % 64 + 128 ≤ r.high.toNat) :
    follow bits count (r :: ranges) (.ofNat (n % 64 + 128) :: rest) =
      follow (bits * 64 + n % 64) (count + 1) ranges rest := by
  have hb : (UInt8.ofNat (n % 64 + 128)).toNat = n % 64 + 128 := by
    rw [UInt8.toNat_ofNat']
    omega
  have hholds : r.holds (.ofNat (n % 64 + 128)) = true := by
    simp only [ByteRange.holds, UInt8.le_iff_toNat_le, hb, Bool.and_eq_true, decide_eq_true_eq]
    exact ⟨hlow, hhigh⟩
  have hbits : (n % 64 + 128) % 64 = n % 64 := by omega
  rw [follow, if_pos hholds, hb, hbits]

/-- What a character's bytes begin with is that character, whatever follows them. -/
theorem head_encodeChar (c : Char) (rest : List UInt8) :
    ∃ first more, utf8EncodeChar c = first :: more ∧
      head first (more ++ rest) = (.char c, more.length) := by
  have hvalid : c.toNat.isValidChar := c.valid
  rw [Nat.isValidChar] at hvalid
  rw [String.utf8EncodeChar.eq_1, Char.toNat_val]
  generalize hn : c.toNat = n at hvalid
  have hc : ∀ m, m = n → Char.ofNat m = c := by
    rintro m rfl
    rw [← hn, Char.ofNat_toNat]
  have hlow : continuation.low.toNat = 128 := rfl
  have hhigh : continuation.high.toNat = 191 := rfl
  split_ifs with h1 h2 h3
  · refine ⟨_, _, rfl, ?_⟩
    rw [head, lead?_alone (by omega)]
    simp [follow, hc]
  · refine ⟨_, _, rfl, ?_⟩
    rw [head, lead?_pair (by omega) (by omega)]
    simp only [List.cons_append, List.nil_append]
    rw [follow_cons (by omega) (by omega), follow, hc _ (by omega)]
    rfl
  · refine ⟨_, _, rfl, ?_⟩
    rw [head, lead?_triple (by omega) (by omega)]
    simp only [List.cons_append, List.nil_append]
    rw [follow_cons _ _, follow_cons (by omega) (by omega), follow, hc _ (by omega)]
    rfl
    all_goals
      split_ifs <;> simp [continuation] <;> omega
  · refine ⟨_, _, rfl, ?_⟩
    rw [head, lead?_quadruple (by omega) (by omega)]
    simp only [List.cons_append, List.nil_append]
    rw [follow_cons _ _, follow_cons (by omega) (by omega), follow_cons (by omega) (by omega),
      follow, hc _ (by omega)]
    rfl
    all_goals
      split_ifs <;> simp [continuation] <;> omega

theorem decode_encodeChar (c : Char) (rest : List UInt8) :
    decode (utf8EncodeChar c ++ rest) = c :: decode rest := by
  obtain ⟨first, more, hc, hhead⟩ := head_encodeChar c rest
  rw [hc, List.cons_append, decode, hhead]
  simp only [List.drop_left]

/-- Decoding gives the characters that were encoded, and goes on behind them. -/
theorem decode_encode_append (text : String) (rest : List UInt8) :
    decode (encode text ++ rest) = text.toList ++ decode rest := by
  rw [encode_eq]
  induction text.toList with
  | nil => rfl
  | cons c chars ih =>
    rw [List.flatMap_cons, List.append_assoc, decode_encodeChar, ih, List.cons_append]

theorem decode_encode (text : String) : decode (encode text) = text.toList := by
  have h := decode_encode_append text []
  rwa [List.append_nil, decode, List.append_nil] at h

@[simp] theorem decodeString_encode (text : String) : decodeString (encode text) = text := by
  rw [decodeString, decode_encode, String.ofList_toList]

theorem encode_injective {a b : String} (h : encode a = encode b) : a = b := by
  rw [← decodeString_encode a, h, decodeString_encode]

/-- The second bytes do not go on with a character that the first ones leave unfinished. -/
def Apart (a b : List UInt8) : Prop :=
  ∀ last next, a.getLast? = some last → b.head? = some next →
    last.toNat < 0x80 ∨ continuation.holds next = false

/-- Where one character's bytes are cut in two, the parts are not apart. -/
theorem not_apart {c : Char} {a b : List UInt8} (h : utf8EncodeChar c = a ++ b) (ha : a ≠ [])
    (hb : b ≠ []) : ¬ Apart a b := by
  obtain ⟨start, a, rfl⟩ := List.exists_cons_of_ne_nil ha
  obtain ⟨next, b, rfl⟩ := List.exists_cons_of_ne_nil hb
  obtain ⟨-, hc⟩ | ⟨-, first, second, more, hc, hfirst, hmore⟩ := encodeChar_cases c
  · simp [hc] at h
  rw [hc, List.cons_append, List.cons.injEq] at h
  obtain ⟨rfl, h⟩ := h
  rw [h] at hmore
  intro apart
  obtain ⟨last, hlast⟩ : ∃ last, (first :: a).getLast? = some last := ⟨_, List.getLast?_cons⟩
  rcases apart last next hlast rfl with hsmall | hnext
  · rcases List.mem_cons.mp (List.mem_of_getLast? hlast) with rfl | hmem
    · omega
    · have hholds := continuation_holds.mp (hmore last (by simp [hmem]))
      omega
  · rw [hmore next (by simp)] at hnext
    cases hnext

/-- A text whose bytes are cut where the parts are apart is cut between two characters. -/
theorem chars_split {chars : List Char} {a b : List UInt8}
    (h : chars.flatMap utf8EncodeChar = a ++ b) (apart : Apart a b) :
    ∃ front back, chars = front ++ back ∧ front.flatMap utf8EncodeChar = a ∧
      back.flatMap utf8EncodeChar = b := by
  induction chars generalizing a with
  | nil =>
    obtain ⟨rfl, rfl⟩ : a = [] ∧ b = [] := by simpa using h
    exact ⟨[], [], rfl, rfl, rfl⟩
  | cons c chars ih =>
    rw [List.flatMap_cons] at h
    rcases List.append_eq_append_iff.mp h with ⟨after, rfl, hchars⟩ | ⟨cut, hc, rfl⟩
    · have hafter : Apart after b := by
        intro last next hlast hnext
        exact apart last next (by rw [List.getLast?_append, hlast, Option.some_or]) hnext
      obtain ⟨front, back, rfl, rfl, rfl⟩ := ih hchars hafter
      exact ⟨c :: front, back, rfl, rfl, rfl⟩
    · rcases eq_or_ne a [] with rfl | ha
      · exact ⟨[], c :: chars, rfl, rfl, by rw [List.flatMap_cons, hc, List.nil_append]⟩
      rcases eq_or_ne cut [] with rfl | hcut
      · exact ⟨[c], chars, rfl, by simpa using hc, rfl⟩
      · refine absurd ?_ (not_apart hc ha hcut)
        intro last next hlast hnext
        exact apart last next hlast (by rw [List.head?_append, hnext, Option.some_or])

theorem encode_split {text : String} {a b : List UInt8} (h : encode text = a ++ b)
    (apart : Apart a b) :
    ∃ front back, text = front ++ back ∧ encode front = a ∧ encode back = b := by
  rw [encode_eq] at h
  obtain ⟨front, back, htext, ha, hb⟩ := chars_split h apart
  refine ⟨.ofList front, .ofList back, ?_, ?_, ?_⟩
  · rw [← String.ofList_append, ← htext, String.ofList_toList]
  · rw [encode_ofList, ha]
  · rw [encode_ofList, hb]

/-- A character that is not a byte of its own has bytes from 0x80 on. -/
theorem exists_high {text : String} {c : Char} (hc : c ∈ text.toList) (h : 0x80 ≤ c.toNat) :
    ∃ b ∈ encode text, 0x80 ≤ b.toNat := by
  obtain ⟨hlow, -⟩ | ⟨-, first, second, more, hbytes, hfirst, -⟩ := encodeChar_cases c
  · omega
  · refine ⟨first, ?_, by omega⟩
    rw [encode_eq]
    exact List.mem_flatMap.mpr ⟨c, hc, by simp [hbytes]⟩

theorem not_continuation_encodeChar {c : Char} {first : UInt8} {more : List UInt8}
    (h : utf8EncodeChar c = first :: more) : continuation.holds first = false := by
  rw [← Bool.not_eq_true, continuation_holds]
  obtain ⟨hlow, hc⟩ | ⟨-, first', second, more', hc, hfirst, -⟩ := encodeChar_cases c
  · obtain ⟨rfl, -⟩ := List.cons.inj (h.symm.trans hc)
    rw [UInt8.toNat_ofNat']
    omega
  · obtain ⟨rfl, -⟩ := List.cons.inj (h.symm.trans hc)
    omega

/-- A text whose bytes after the first all continue a character is one character. -/
theorem eq_singleton {text : String} {first : UInt8} {more : List UInt8}
    (h : encode text = first :: more) (hmore : ∀ b ∈ more, continuation.holds b = true) :
    ∃ c, text.toList = [c] := by
  rw [encode_eq] at h
  obtain hnil | ⟨c, hone⟩ | ⟨c, d, chars, htwo⟩ : text.toList = [] ∨ (∃ c, text.toList = [c]) ∨
      ∃ c d chars, text.toList = c :: d :: chars := by
    rcases text.toList with - | ⟨c, - | ⟨d, chars⟩⟩ <;> simp
  · rw [hnil] at h
    cases h
  · exact ⟨c, hone⟩
  · obtain ⟨b, bytes, hc⟩ := List.exists_cons_of_ne_nil
      (String.utf8EncodeChar_ne_nil : utf8EncodeChar c ≠ [])
    obtain ⟨b', bytes', hd⟩ := List.exists_cons_of_ne_nil
      (String.utf8EncodeChar_ne_nil : utf8EncodeChar d ≠ [])
    rw [htwo, List.flatMap_cons, List.flatMap_cons, hc, hd, List.cons_append, List.cons.injEq] at h
    have hb' := hmore b' (by rw [← h.2]; simp)
    rw [not_continuation_encodeChar hd] at hb'
    cases hb'

end ClassScript.Text
