import ClassScript.Proofs.Text.Encoding

/-! Bytes below 0x80. Such a byte is a character of its own whatever stands before it, and no other
bytes are decoded to that character. -/
namespace ClassScript.Text

/-- The character that stands for what some bytes begin with. -/
def Head.shown : Head → Char
  | char c => c
  | malformed | cut => '\uFFFD'

theorem decode_cons (first : UInt8) (rest : List UInt8) :
    decode (first :: rest) = (head first rest).1.shown ::
    decode (rest.drop (head first rest).2) := by
  rw [decode]
  rcases head first rest with ⟨_ | _ | _, count⟩ <;> rfl

/-- A first byte is a character of its own, or some byte from 0x80 on has to follow. That one is
bounded from below such that no code point below 0x80 is written with more than one byte. -/
theorem lead?_cases {b : UInt8} {bits : Nat} {ranges : List ByteRange}
    (h : lead? b = some (bits, ranges)) :
    (b.toNat < 0x80 ∧ bits = b.toNat ∧ ranges = []) ∨
      ∃ r more, ranges = r :: more ∧ (∀ r ∈ ranges, 0x80 ≤ r.low.toNat) ∧ r.high.toNat < 0xC0 ∧
        (2 ≤ bits ∨ more ≠ [] ∧ 2 ≤ bits * 64 + r.low.toNat % 64) := by
  simp only [lead?, UInt8.lt_iff_toNat_lt, ← UInt8.toNat_inj, UInt8.reduceToNat] at h
  split_ifs at h
  all_goals
    simp only [Option.some.injEq, Prod.mk.injEq] at h
    obtain ⟨rfl, rfl⟩ := h
  · exact .inl ⟨‹_›, rfl, rfl⟩
  all_goals
    refine .inr ⟨_, _, rfl, by simp [continuation], by simp [continuation], ?_⟩
    simp only [continuation, UInt8.reduceToNat, ne_eq, reduceCtorEq, not_false_eq_true, true_and]
    omega

theorem toNat_ofNat_of_valid {n : Nat} (h : n.isValidChar) : (Char.ofNat n).toNat = n := by
  unfold Char.ofNat
  rw [dif_pos h]
  rfl

/-- A number that is no code point stands for NUL. -/
theorem toNat_ofNat_cases (n : Nat) : (Char.ofNat n).toNat = n ∨ (Char.ofNat n).toNat = 0 := by
  by_cases h : n.isValidChar
  · exact .inl (toNat_ofNat_of_valid h)
  · unfold Char.ofNat
    rw [dif_neg h]
    exact .inr rfl

section Follow

variable {ranges : List ByteRange} {bits count : Nat} {rest : List UInt8}

theorem follow_count_le : (follow bits count ranges rest).2 ≤ count + rest.length := by
  fun_induction follow bits count ranges rest with
  | case3 bits count r ranges b bytes hr ih =>
    rw [List.length_cons]
    omega
  | _ => simp

/-- A byte below 0x80 is none of those that have to follow, so it ends them as the end does. -/
theorem follow_append (high : ∀ r ∈ ranges, 0x80 ≤ r.low.toNat) (body : List UInt8) {b : UInt8}
    (hb : b.toNat < 0x80) :
    (follow bits count ranges (body ++ b :: rest)).1.shown =
      (follow bits count ranges body).1.shown ∧
    (follow bits count ranges (body ++ b :: rest)).2 = (follow bits count ranges body).2 := by
  fun_induction follow bits count ranges body with
  | case1 => exact ⟨rfl, rfl⟩
  | case2 bits count r ranges =>
    have hr : r.holds b = false := by
      have := high r (by simp)
      simp only [ByteRange.holds, Bool.and_eq_false_iff, decide_eq_false_iff_not,
        UInt8.le_iff_toNat_le]
      omega
    simp [follow, hr, Head.shown]
  | case3 bits count r ranges c bytes hr ih =>
    rw [List.cons_append, follow, if_pos hr]
    exact ih (List.forall_mem_cons.mp high).2
  | case4 bits count r ranges c bytes hr =>
    rw [List.cons_append, follow, if_neg hr]
    exact ⟨rfl, rfl⟩

/-- The bits of the bytes that follow are put behind those there are. -/
theorem le_follow {c : Char} (h : (follow bits count ranges rest).1 = .char c) (hc : c.toNat ≠ 0) :
    bits ≤ c.toNat := by
  fun_induction follow bits count ranges rest with
  | case1 bits count rest =>
    obtain rfl : Char.ofNat bits = c := by simpa using h
    rw [(toNat_ofNat_cases bits).resolve_right hc]
  | case3 bits count r ranges b bytes hr ih =>
    have := ih h
    omega
  | _ => cases h

theorem le_follow_cons {c : Char} {r : ByteRange}
    (h : (follow bits count (r :: ranges) rest).1 = .char c) (hc : c.toNat ≠ 0) :
    bits * 64 ≤ c.toNat := by
  rcases rest with - | ⟨b, rest⟩
  · cases h
  · rw [follow] at h
    split_ifs at h
    have := le_follow h hc
    omega

end Follow

theorem head_count_le (first : UInt8) (rest : List UInt8) : (head first rest).2 ≤ rest.length := by
  unfold head
  split
  · exact Nat.zero_le _
  · exact follow_count_le.trans (by simp)

theorem head_append (first : UInt8) (body : List UInt8) {b : UInt8} (hb : b.toNat < 0x80)
    (rest : List UInt8) :
    (head first (body ++ b :: rest)).1.shown = (head first body).1.shown ∧
      (head first (body ++ b :: rest)).2 = (head first body).2 := by
  unfold head
  split
  · exact ⟨rfl, rfl⟩
  · next bits ranges hlead =>
    obtain ⟨-, -, rfl⟩ | ⟨r, more, rfl, high, -⟩ := lead?_cases hlead
    · exact ⟨rfl, rfl⟩
    · exact follow_append high body hb

/-- A byte below 0x80 is decoded to a character of its own. -/
theorem decode_low {b : UInt8} (hb : b.toNat < 0x80) (rest : List UInt8) :
    decode (b :: rest) = .ofNat b.toNat :: decode rest := by
  have hlead := lead?_alone hb
  rw [UInt8.ofNat_toNat] at hlead
  rw [decode_cons, head, hlead]
  rfl

/-- So it is wherever it stands. -/
theorem decode_append_low (body : List UInt8) {b : UInt8} (hb : b.toNat < 0x80)
    (rest : List UInt8) :
    decode (body ++ b :: rest) = decode body ++ .ofNat b.toNat :: decode rest := by
  match body with
  | [] => rw [decode, List.nil_append, List.nil_append, decode_low hb]
  | first :: body =>
    obtain ⟨hshown, hcount⟩ := head_append first body hb rest
    have hle := head_count_le first body
    rw [List.cons_append, decode_cons, hshown, hcount, List.drop_append_of_le_length hle,
      decode_append_low (body.drop (head first body).2) hb rest, decode_cons first body,
      List.cons_append]
termination_by body.length

/-- Only the byte of a character below 0x80 is decoded to that character. NUL is left out: a number
that is no code point would be decoded to it. -/
theorem head_low {first : UInt8} {rest : List UInt8} {c : Char}
    (h : (head first rest).1 = .char c) (hc : c.toNat < 0x80) (hzero : c.toNat ≠ 0) :
    first.toNat = c.toNat := by
  unfold head at h
  split at h
  · cases h
  next bits ranges hlead =>
  obtain ⟨-, rfl, rfl⟩ | ⟨r, more, rfl, high, hhigh, hbits⟩ := lead?_cases hlead
  · obtain rfl : Char.ofNat first.toNat = c := by simpa [follow] using h
    exact ((toNat_ofNat_cases first.toNat).resolve_right hzero).symm
  · rcases hbits with hbits | ⟨hmore, hbits⟩
    · have := le_follow_cons h hzero
      omega
    · -- the bound on the second byte makes up for the first one
      rcases rest with - | ⟨b, rest⟩
      · cases h
      obtain ⟨r', more, rfl⟩ := List.exists_cons_of_ne_nil hmore
      rw [follow] at h
      split_ifs at h with hr
      have hlow := high r (by simp)
      simp only [ByteRange.holds, Bool.and_eq_true, decide_eq_true_eq, UInt8.le_iff_toNat_le] at hr
      have := le_follow_cons h hzero
      omega

/-- A character below 0x80 is decoded from its byte. -/
theorem mem_of_mem_decode {bytes : List UInt8} {c : Char} (h : c ∈ decode bytes)
    (hc : c.toNat < 0x80) (hzero : c.toNat ≠ 0) : .ofNat c.toNat ∈ bytes := by
  match bytes with
  | [] => simp [decode] at h
  | first :: rest =>
    rw [decode_cons] at h
    rcases List.mem_cons.mp h with hshown | hmore
    · have hchar : (head first rest).1 = .char c := by
        cases hhead : (head first rest).1 with
        | char c' => rw [hshown, hhead, Head.shown]
        | malformed | cut =>
          rw [hhead] at hshown
          subst hshown
          exact absurd hc (by decide)
      rw [← head_low hchar hc hzero, UInt8.ofNat_toNat]
      exact List.mem_cons_self
    · exact List.mem_cons_of_mem first (List.mem_of_mem_drop (mem_of_mem_decode hmore hc hzero))
termination_by bytes.length
decreasing_by
  simp only [List.length_cons, List.length_drop]
  omega

theorem encodeChar_low {b : UInt8} (hb : b.toNat < 0x80) :
    String.utf8EncodeChar (.ofNat b.toNat) = [b] := by
  have hc : (Char.ofNat b.toNat).toNat = b.toNat := toNat_ofNat_of_valid (.inl (by omega))
  obtain ⟨-, h⟩ | ⟨hhigh, -⟩ := encodeChar_cases (.ofNat b.toNat)
  · rw [h, hc, UInt8.ofNat_toNat]
  · omega

/-- A byte below 0x80 is encoded from its character. -/
theorem mem_of_mem_encode {text : String} {b : UInt8} (h : b ∈ encode text) (hb : b.toNat < 0x80) :
    .ofNat b.toNat ∈ text.toList := by
  rw [encode_eq] at h
  obtain ⟨c, hc, hbytes⟩ := List.mem_flatMap.mp h
  obtain ⟨hlow, hone⟩ | ⟨-, first, second, more, hall, hfirst, hmore⟩ := encodeChar_cases c
  · obtain rfl : b = .ofNat c.toNat := by simpa [hone] using hbytes
    have hmod : c.toNat % 2 ^ 8 = c.toNat := by omega
    rwa [UInt8.toNat_ofNat', hmod, Char.ofNat_toNat]
  · rw [hall] at hbytes
    rcases List.mem_cons.mp hbytes with rfl | hbytes
    · omega
    · have := continuation_holds.mp (hmore b hbytes)
      omega

/-- Bytes below 0x80 are a text. -/
theorem encode_decode_low {bytes : List UInt8} (low : ∀ b ∈ bytes, b.toNat < 0x80) :
    encode (decodeString bytes) = bytes := by
  rw [decodeString, encode_ofList]
  induction bytes with
  | nil => simp [decode]
  | cons b bytes ih =>
    obtain ⟨hb, hbytes⟩ := List.forall_mem_cons.mp low
    rw [decode_low hb, List.flatMap_cons, encodeChar_low hb, ih hbytes]
    rfl

end ClassScript.Text
