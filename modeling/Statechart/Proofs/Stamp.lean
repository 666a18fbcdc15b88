import Statechart.Proofs.JsonText
import Statechart.Proofs.Traversal
import Statechart.Timestamp
import Statechart.Uuid

/-!
The stamps of a checkpoint as text. Every part of an instant is a number of a fixed width with zeros
in front, and what follows it is no digit, so reading takes in just the part that was written: an
instant of a year of four digits, outside a leap second, is read back. So is every identifier, whose
groups of digits are told apart by their lengths.
-/
namespace Statechart

namespace Timestamp

variable {width most n : Nat} {c : Char} {rest : List Char} {t : Timestamp}

/-! ### Numbers of a fixed width -/

theorem natOfDigits_padded (width n : Nat) : natOfDigits (padded width n) = n := by
  have hvalue (ds : List Char) : natOfDigits ds = Nat.ofDigitChars 10 ds 0 :=
    Nat.ofDigitChars_eq_foldl.symm
  rw [hvalue, padded, Nat.ofDigitChars_append, Nat.ofDigitChars_replicate_zero, Nat.mul_zero,
    Nat.ofDigitChars_ten_toDigits]

theorem length_padded (hwidth : 0 < width) (hn : n < Nat.pow 10 width) :
    (padded width n).length = width := by
  have hdigits := (Nat.length_toDigits_le_iff (by omega) hwidth).mpr hn
  rw [padded, List.length_append, List.length_replicate]
  omega

theorem isDigit_of_mem_padded (hc : c ∈ padded width n) : c.isDigit = true := by
  rcases List.mem_append.mp hc with hc | hc
  · rw [List.eq_of_mem_replicate hc]
    rfl
  · exact Nat.isDigit_of_mem_toDigits (by omega) (by omega) hc

theorem exists_padded (width n : Nat) :
    ∃ c cs, padded width n = c :: cs ∧ c.isDigit = true := by
  have hne : padded width n ≠ [] := fun hnil =>
    @Nat.toDigits_ne_nil n 10 (List.append_eq_nil_iff.mp hnil).2
  obtain ⟨c, cs, hcs⟩ := List.exists_cons_of_ne_nil hne
  exact ⟨c, cs, hcs, isDigit_of_mem_padded (hcs ▸ List.mem_cons_self)⟩

theorem not_blank_of_digit (hc : c.isDigit = true) : Text.isBlank c = false := by
  have hrange : 48 ≤ c.toNat ∧ c.toNat ≤ 57 := by
    simpa [Char.isDigit, UInt32.le_iff_toNat_le] using hc
  simp only [Text.isBlank, Bool.or_eq_false_iff, Bool.and_eq_false_iff, decide_eq_false_iff_not,
    beq_eq_false_iff_ne]
  omega

/-- The text does not go on with a digit. -/
def Breaks (rest : List Char) : Prop := ∀ c ∈ rest.head?, c.isDigit = false

theorem breaks_cons (hc : c.isDigit = false) (cs : List Char) : Breaks (c :: cs) := by
  simpa [Breaks] using hc

theorem skipBlanks_padded (width n : Nat) (rest : List Char) :
    Text.skipBlanks (padded width n ++ rest) = padded width n ++ rest := by
  obtain ⟨c, cs, hcs, hc⟩ := exists_padded width n
  rw [hcs, List.cons_append, Text.skipBlanks, List.dropWhile_cons_of_neg]
  simp [not_blank_of_digit hc]

theorem digits?_padded (hwidth : 0 < width) (hn : n < Nat.pow 10 width) (hmost : width ≤ most)
    (hrest : Breaks rest) :
    digits? most (padded width n ++ rest) = some (padded width n, rest) := by
  have hlength := length_padded hwidth hn
  have hstop : (rest.take (most - width)).takeWhile Char.isDigit = [] := by
    cases rest with
    | nil => simp
    | cons c rest =>
      cases most - width with
      | zero => rfl
      | succ k => simp [hrest c (by simp)]
  have htaken : ((padded width n ++ rest).take most).takeWhile Char.isDigit = padded width n := by
    rw [List.take_append, List.take_of_length_le (by omega), hlength,
      List.takeWhile_append_of_pos fun c hc => isDigit_of_mem_padded hc, hstop, List.append_nil]
  obtain ⟨c, cs, hcs, -⟩ := exists_padded width n
  simp only [digits?, htaken]
  rw [if_neg (by simp [hcs]), List.drop_left]

theorem number?_padded (hwidth : 0 < width) (hn : n < Nat.pow 10 width) (hmost : width ≤ most)
    (hrest : Breaks rest) : number? most (padded width n ++ rest) = some (n, rest) := by
  rw [number?, skipBlanks_padded, digits?_padded hwidth hn hmost hrest]
  exact congrArg (fun k => some (k, rest)) (natOfDigits_padded width n)

theorem year?_padded (hn : n < 10000) (hrest : Breaks rest) :
    year? (padded 4 n ++ rest) = some ((n : Int), rest) := by
  have hdigits := digits?_padded (by omega) hn (Nat.le_refl 4) hrest
  obtain ⟨c, cs, hcs, hc⟩ := exists_padded 4 n
  have hsign : c ≠ '-' ∧ c ≠ '+' := by
    constructor <;> rintro rfl <;> exact absurd hc (by decide)
  have hyear : year? (padded 4 n ++ rest) = (digits? 4 (padded 4 n ++ rest)).map
      fun digits => ((natOfDigits digits.1 : Int), digits.2) := by
    rw [year?, skipBlanks_padded, hcs, List.cons_append]
    split
    · exact absurd (List.cons.inj ‹_›).1 hsign.1
    · exact absurd (List.cons.inj ‹_›).1 hsign.2
    · rfl
  rw [hyear, hdigits]
  exact congrArg (fun k : Nat => some ((k : Int), rest)) (natOfDigits_padded 4 n)

theorem literal?_cons (hc : Text.isBlank c = false) (cs : List Char) :
    literal? c (c :: cs) = some cs := by
  rw [literal?, Text.skipBlanks, List.dropWhile_cons_of_neg (by simp [hc])]
  simp

/-- As many digits as are exact say it all. -/
theorem fraction?_fractionText (hn : n < 1000000000) :
    fraction? (fractionText n ++ ['Z']) = some (n, ['Z']) := by
  have point (width scale : Nat) (hwidth : 0 < width) (hle : width ≤ 9)
      (hscale : Nat.pow 10 (9 - width) = scale) (hall : scale * Nat.pow 10 width = 1000000000)
      (hexact : n % scale = 0) :
      fraction? ('.' :: padded width (n / scale) ++ ['Z']) = some (n, ['Z']) := by
    have hlt : n / scale < Nat.pow 10 width := Nat.div_lt_of_lt_mul (hall ▸ hn)
    have hdigits := digits?_padded hwidth hlt hle (breaks_cons (c := 'Z') rfl [])
    have hvalue : n / scale * scale = n := Nat.div_mul_cancel (Nat.dvd_of_mod_eq_zero hexact)
    rw [List.cons_append, fraction?, hdigits]
    simp only [Option.map_some, natOfDigits_padded, length_padded hwidth hlt, hscale, hvalue]
    rfl
  rw [fractionText]
  split
  · rename_i hzero
    rw [hzero]
    rfl
  split
  · exact point 3 1000000 (by omega) (by omega) rfl rfl ‹_›
  split
  · exact point 6 1000 (by omega) (by omega) rfl rfl ‹_›
  · have h := point 9 1 (by omega) (by omega) rfl rfl (Nat.mod_one n)
    rwa [Nat.div_one] at h

/-! ### The whole text -/

/-- The time of day, taken apart and put together again. -/
theorem ofClock?_second (t : Timestamp) :
    ofClock? t.date (t.second / 3600) (t.second / 60 % 60) (t.second % 60) t.nanos 0 = some t := by
  obtain ⟨hsecond, hrest⟩ := t.valid
  have hclock : t.second / 3600 < 24 ∧ t.second / 60 % 60 < 60 ∧ t.second % 60 ≤ 60 := by omega
  have htotal : t.second / 3600 * 3600 + t.second / 60 % 60 * 60 + t.second % 60 = t.second := by
    omega
  rw [ofClock?, if_pos hclock, if_neg (by omega), htotal, ofLocal?, Int.sub_zero,
    if_neg (by omega), if_pos (by omega), Int.toNat_natCast, of?, dif_pos t.valid]

theorem breaks_fractionText (n : Nat) : Breaks (fractionText n ++ ['Z']) := by
  unfold fractionText
  split
  · exact breaks_cons (c := 'Z') rfl _
  split
  · exact breaks_cons (c := '.') rfl _
  split
  · exact breaks_cons (c := '.') rfl _
  · exact breaks_cons (c := '.') rfl _

/-- A date with four digits for the year and a clock reading below the minute's end are read as they
are written. -/
theorem ofChars?_text {year month day hour minute second nanos : Nat} (hyear : year < 10000)
    (hmonth : month < 100) (hday : day < 100) (hhour : hour < 100) (hminute : minute < 100)
    (hsecond : second < 100) (hnanos : nanos < 1000000000) :
    ofChars? (padded 4 year ++ '-' :: (padded 2 month ++ '-' :: (padded 2 day ++ 'T' ::
      (padded 2 hour ++ ':' :: (padded 2 minute ++ ':' :: (padded 2 second ++
        (fractionText nanos ++ ['Z']))))))) =
      (Date.of? year month day).bind (ofClock? · hour minute second nanos 0) := by
  have number {n : Nat} (hn : n < 100) {rest : List Char} (hrest : Breaks rest) :
      number? 2 (padded 2 n ++ rest) = some (n, rest) :=
    number?_padded (by omega) hn (Nat.le_refl 2) hrest
  have dash (cs : List Char) := literal?_cons (c := '-') rfl cs
  have colon (cs : List Char) := literal?_cons (c := ':') rfl cs
  have hyear? (rest : List Char) := year?_padded hyear (breaks_cons (c := '-') rfl rest)
  have hmonth? (rest : List Char) := number hmonth (breaks_cons (c := '-') rfl rest)
  have hday? (rest : List Char) := number hday (breaks_cons (c := 'T') rfl rest)
  have hhour? (rest : List Char) := number hhour (breaks_cons (c := ':') rfl rest)
  have hminute? (rest : List Char) := number hminute (breaks_cons (c := ':') rfl rest)
  have hsecond? := number hsecond (breaks_fractionText nanos)
  have hmark (cs : List Char) : dateTimeMark? ('T' :: cs) = some cs := rfl
  -- part by part, in the order in which they are read
  exact (bind_of_eq_some (hyear? _)).trans <| (bind_of_eq_some (dash _)).trans <|
    (bind_of_eq_some (hmonth? _)).trans <| (bind_of_eq_some (dash _)).trans <|
    (bind_of_eq_some (hday? _)).trans <| (bind_of_eq_some (hmark _)).trans <|
    (bind_of_eq_some (hhour? _)).trans <| (bind_of_eq_some (colon _)).trans <|
    (bind_of_eq_some (hminute? _)).trans <| (bind_of_eq_some (colon _)).trans <|
    (bind_of_eq_some hsecond?).trans <|
    (bind_of_eq_some (fraction?_fractionText hnanos)).trans rfl

theorem toChars_eq (hyear : 0 ≤ t.date.year ∧ t.date.year ≤ 9999) (hnanos : t.nanos < 1000000000) :
    t.toChars = padded 4 t.date.year.toNat ++ '-' :: (padded 2 t.date.month ++ '-' ::
      (padded 2 t.date.day ++ 'T' :: (padded 2 (t.second / 3600) ++ ':' ::
        (padded 2 (t.second / 60 % 60) ++ ':' :: (padded 2 (t.second % 60) ++
          (fractionText t.nanos ++ ['Z'])))))) := by
  have hleap : t.nanos / 1000000000 = 0 := by omega
  simp only [toChars, yearText, if_pos hyear, hleap, Nat.add_zero, Nat.mod_eq_of_lt hnanos,
    List.append_assoc, List.cons_append]

theorem daysInMonth_le (year : Int) (month : Nat) : daysInMonth year month ≤ 31 := by
  unfold daysInMonth
  split
  · split <;> omega
  · split <;> omega

/-- An instant with a year of four digits and outside a leap second is read back from its text. -/
theorem ofString?_toString (hyear : 0 ≤ t.date.year ∧ t.date.year ≤ 9999)
    (hnanos : t.nanos < 1000000000) : ofString? t.toString = some t := by
  obtain ⟨-, -, -, hmonth, -, hday⟩ := t.date.valid
  have hdays := daysInMonth_le t.date.year t.date.month
  have hsecond := t.valid.1
  have hdate : Date.of? t.date.year.toNat t.date.month t.date.day = some t.date := by
    rw [Int.toNat_of_nonneg hyear.1, Date.of?, dif_pos t.date.valid]
  rw [ofString?, toString, String.toList_ofList, toChars_eq hyear hnanos,
    ofChars?_text (by omega) (by omega) (by omega) (by omega) (by omega) (by omega) hnanos, hdate,
    Option.bind_some, ofClock?_second]

end Timestamp

namespace Uuid

open Json (hexDigit hexValue? hexValue?_hexDigit)

theorem byte_halves_lt (b : UInt8) : b.toNat / 16 < 16 ∧ b.toNat % 16 < 16 := by
  have := b.toNat_lt
  omega

theorem bytesOfHex?_hexOfBytes (bs : List UInt8) : bytesOfHex? (hexOfBytes bs) = some bs := by
  induction bs with
  | nil => rfl
  | cons b bs ih =>
    obtain ⟨hhigh, hlow⟩ := byte_halves_lt b
    have hbyte : UInt8.ofNat (16 * (b.toNat / 16) + b.toNat % 16) = b := by
      rw [Nat.div_add_mod, UInt8.ofNat_toNat]
    rw [hexOfBytes, List.flatMap_cons, hexOfByte, List.cons_append, List.cons_append,
      List.nil_append, bytesOfHex?, ← hexOfBytes, ih, hexValue?_hexDigit _ hhigh,
      hexValue?_hexDigit _ hlow]
    simp only [Option.bind_eq_bind, Option.bind_some, hbyte]

theorem length_hexOfBytes (bs : List UInt8) : (hexOfBytes bs).length = 2 * bs.length := by
  induction bs with
  | nil => rfl
  | cons b bs ih =>
    rw [hexOfBytes, List.flatMap_cons, List.length_append, ← hexOfBytes, ih, List.length_cons]
    simp only [hexOfByte, List.length_cons, List.length_nil]
    omega

theorem splitAt_hexOfBytes {bs : List UInt8} {k : Nat} (h : 2 * bs.length = k) (rest : List Char) :
    (hexOfBytes bs ++ rest).splitAt k = (hexOfBytes bs, rest) := by
  rw [← h, ← length_hexOfBytes, List.splitAt_eq, List.take_left, List.drop_left]

/-- The groups are those that were written. -/
theorem ungroup?_toChars (u : Uuid) : ungroup? u.toChars = some (hexOfBytes u.bytes) := by
  have hlength := u.length_eq
  have hbytes : hexOfBytes (u.bytes.take 4) ++ hexOfBytes ((u.bytes.drop 4).take 2) ++
      hexOfBytes ((u.bytes.drop 6).take 2) ++ hexOfBytes ((u.bytes.drop 8).take 2) ++
      hexOfBytes (u.bytes.drop 10) = hexOfBytes u.bytes := by
    have hjoin (i : Nat) : (u.bytes.drop i).take 2 ++ u.bytes.drop (i + 2) = u.bytes.drop i := by
      rw [← List.drop_drop, List.take_append_drop]
    simp only [hexOfBytes, ← List.flatMap_append, List.append_assoc]
    rw [hjoin 8, hjoin 6, hjoin 4, List.take_append_drop]
  have hfirst : 2 * (u.bytes.take 4).length = 8 := by
    rw [List.length_take]
    omega
  have hmiddle (i : Nat) (hi : i ≤ 14) : 2 * ((u.bytes.drop i).take 2).length = 4 := by
    rw [List.length_take, List.length_drop]
    omega
  have hlast : (hexOfBytes (u.bytes.drop 10)).length = 12 := by
    rw [length_hexOfBytes, List.length_drop, hlength]
  simp only [ungroup?, toChars, List.append_assoc, List.cons_append, splitAt_hexOfBytes hfirst,
    splitAt_hexOfBytes (hmiddle 4 (by omega)), splitAt_hexOfBytes (hmiddle 6 (by omega)),
    splitAt_hexOfBytes (hmiddle 8 (by omega)), if_pos hlast]
  simp only [← List.append_assoc, hbytes]

theorem length_toChars (u : Uuid) : u.toChars.length = 36 := by
  have hlength := u.length_eq
  simp only [toChars, List.length_append, List.length_cons, length_hexOfBytes, List.length_take,
    List.length_drop]
  omega

/-- An identifier begins with a digit. -/
theorem exists_toChars (u : Uuid) : ∃ n < 16, ∃ cs, u.toChars = hexDigit n :: cs := by
  obtain ⟨b, bs, hbs⟩ : ∃ b bs, u.bytes = b :: bs := by
    apply List.exists_cons_of_ne_nil
    intro hnil
    simpa [hnil] using u.length_eq
  refine ⟨b.toNat / 16, (byte_halves_lt b).1, u.toChars.tail, ?_⟩
  rw [toChars, hbs, List.take_succ_cons, hexOfBytes, List.flatMap_cons, hexOfByte]
  rfl

/-- So it is read neither as a text in braces nor as one that names its scheme. -/
theorem ofChars?_hexDigit {n : Nat} (hn : n < 16) {cs : List Char} (hlength : cs.length ≠ 31) :
    ofChars? (hexDigit n :: cs) = ofGrouped? (hexDigit n :: cs) := by
  have hdigit : hexDigit n ≠ '\x7b' ∧ (hexDigit n).toLower ≠ 'u' := by
    revert n
    decide
  have hlabel : ((hexDigit n :: cs).take urnLabel.length).map Char.toLower ≠ urnLabel := fun h =>
    hdigit.2 (List.cons.inj h).1
  rw [ofChars?]
  · rw [if_neg hlabel, if_neg (by rw [List.length_cons]; omega)]
  · rintro rest h
    exact hdigit.1 (List.cons.inj h).1

/-- An identifier is read back from its text. -/
theorem ofString?_toString (u : Uuid) : ofString? u.toString = some u := by
  obtain ⟨n, hn, cs, hcs⟩ := exists_toChars u
  have hlength : cs.length ≠ 31 := by
    have := length_toChars u
    rw [hcs, List.length_cons] at this
    omega
  rw [ofString?, toString, String.toList_ofList, hcs, ofChars?_hexDigit hn hlength, ← hcs,
    ofGrouped?, ungroup?_toChars, Option.bind_some, ofHex?, bytesOfHex?_hexOfBytes,
    Option.bind_some, ofBytes?, dif_pos u.length_eq]

end Uuid

end Statechart
