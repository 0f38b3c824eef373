import KeyedStore.Hash.Accumulator
/-!
No byte is lost in the string hash. Thirty-three is odd, so multiplying by it can be undone in sixty-four bits,
and so can entering a byte by exclusive or: a step tells its word from every other word, and its byte from every
other byte. What two texts have in common behind the place where they differ therefore never brings their
running words together again.
-/
namespace KeyedStore.Accumulator

/-- What undoes a multiplication by thirty-three. -/
def unscale : UInt64 := 0x0f83e0f83e0f83e1

theorem scale_unscale (word : UInt64) : word * 33 * unscale = word := by
  have inverse : (33 : UInt64) * unscale = 1 := by decide
  rw [UInt64.mul_assoc, inverse, UInt64.mul_one]

theorem scale_inj {word other : UInt64} : word * 33 = other * 33 ↔ word = other := by
  constructor
  · intro same
    have undone := congrArg (· * unscale) same
    rwa [scale_unscale, scale_unscale] at undone
  · exact congrArg (· * 33)

/-- The same byte takes different words to different words. -/
theorem step_left_inj {word other : UInt64} {byte : UInt8} : step word byte = step other byte ↔ word = other := by
  rw [step, step, UInt64.xor_left_inj, scale_inj]

/-- Different bytes take the same word to different words. -/
theorem step_right_inj {word : UInt64} {byte other : UInt8} : step word byte = step word other ↔ byte = other := by
  rw [step, step, UInt64.xor_right_inj, UInt8.toUInt64_inj]

/-- Running words that have come apart stay apart. -/
theorem resume_inj {word other : UInt64} (bytes : List UInt8) :
    resume word bytes = resume other bytes ↔ word = other := by
  induction bytes generalizing word other with
  | nil => exact Iff.rfl
  | cons byte bytes ih =>
    have further : resume (step word byte) bytes = resume (step other byte) bytes ↔
        step word byte = step other byte := ih
    exact further.trans step_left_inj

theorem ofBytes_append_inj (one two after : List UInt8) :
    ofBytes (one ++ after) = ofBytes (two ++ after) ↔ ofBytes one = ofBytes two := by
  rw [ofBytes_append, ofBytes_append, resume_inj]

theorem ofBytes_byte_inj (before after : List UInt8) (byte other : UInt8) :
    ofBytes (before ++ [byte] ++ after) = ofBytes (before ++ [other] ++ after) ↔ byte = other := by
  rw [ofBytes_append_inj, ofBytes_append, ofBytes_append]
  exact step_right_inj

/-- The number of places at which two runs of bytes differ, as far as both go. -/
def differences (one two : List UInt8) : Nat := (one.zip two).countP fun pair => pair.1 ≠ pair.2

theorem differences_cons (byte other : UInt8) (one two : List UInt8) :
    differences (byte :: one) (other :: two) = differences one two + if byte = other then 0 else 1 := by
  rw [differences, List.zip_cons_cons, List.countP_cons]
  by_cases same : byte = other <;> simp [same, differences]

theorem eq_of_differences_eq_zero {one two : List UInt8} (length : one.length = two.length)
    (none : differences one two = 0) : one = two := by
  induction one generalizing two with
  | nil => exact (List.length_eq_zero_iff.mp length.symm).symm
  | cons byte one ih =>
    cases two with
    | nil => cases length
    | cons other two =>
      rw [differences_cons] at none
      by_cases same : byte = other
      · rw [if_pos same] at none
        rw [same, ih (Nat.succ.inj length) none]
      · rw [if_neg same] at none
        cases none

/-- Runs of equal length with one difference between them have everything else in common. -/
theorem split_of_differences_eq_one {one two : List UInt8} (length : one.length = two.length)
    (single : differences one two = 1) : ∃ before byte other after,
      byte ≠ other ∧ one = before ++ [byte] ++ after ∧ two = before ++ [other] ++ after := by
  induction one generalizing two with
  | nil =>
    obtain rfl := List.length_eq_zero_iff.mp length.symm
    cases single
  | cons byte one ih =>
    cases two with
    | nil => cases length
    | cons other two =>
      rw [differences_cons] at single
      by_cases same : byte = other
      · rw [if_pos same] at single
        obtain ⟨before, first, second, after, apart, rfl, rfl⟩ := ih (Nat.succ.inj length) single
        exact ⟨byte :: before, first, second, after, apart, rfl, by rw [same]; rfl⟩
      · rw [if_neg same] at single
        obtain rfl := eq_of_differences_eq_zero (Nat.succ.inj length) (Nat.succ.inj single)
        exact ⟨[], byte, other, one, same, rfl, rfl⟩

/-- Every byte counts. What follows decides nothing: two runs of bytes continued alike have equal hashes exactly
if they had them before. One byte in the middle decides all: changing nothing but it keeps the hash exactly if
it keeps the byte. So texts of equal length that differ in one byte never have the same hash. -/
theorem ofString_separates :
    (∀ one two after, ofBytes (one ++ after) = ofBytes (two ++ after) ↔ ofBytes one = ofBytes two) ∧
    (∀ before after byte other,
      ofBytes (before ++ [byte] ++ after) = ofBytes (before ++ [other] ++ after) ↔ byte = other) ∧
    ∀ one two : String, (utf8 one).length = (utf8 two).length → differences (utf8 one) (utf8 two) = 1 →
      ofString one ≠ ofString two := by
  refine ⟨ofBytes_append_inj, ofBytes_byte_inj, fun one two length single collision => ?_⟩
  obtain ⟨before, byte, other, after, apart, first, second⟩ := split_of_differences_eq_one length single
  rw [ofString, ofString, first, second] at collision
  exact apart ((ofBytes_byte_inj before after byte other).mp collision)

/-- The letters differ in the second of their two bytes, and eight bytes follow. -/
theorem ofString_separates_accents :
    (utf8 "éclairage").length = (utf8 "èclairage").length ∧
      differences (utf8 "éclairage") (utf8 "èclairage") = 1 ∧
      ofString "éclairage" ≠ ofString "èclairage" := by
  have length : (utf8 "éclairage").length = (utf8 "èclairage").length := by decide
  have single : differences (utf8 "éclairage") (utf8 "èclairage") = 1 := by decide
  exact ⟨length, single, ofString_separates.2.2 _ _ length single⟩

end KeyedStore.Accumulator
