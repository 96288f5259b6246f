import Mathlib.Data.Nat.Digits.Lemmas

/-!
# Decimal numerals in front of other bytes

A number is written as its decimal digits in ASCII, most significant first.
Reading a number takes the longest run of digits at the front and ignores the
rest, so a written number is read back whenever no digit follows it.
-/

namespace CapsuleDB.DecimalPrefix

/-- The ASCII character of a decimal digit. -/
def digitByte (d : ℕ) : UInt8 := UInt8.ofNat (48+d)

/-- Whether a byte is an ASCII digit. -/
def isDigit (b : UInt8) : Bool := decide (48 ≤ b.toNat ∧ b.toNat ≤ 57)

/-- The decimal digits of a number. -/
def decimal (u : ℕ) : List UInt8 :=
  if u = 0 then [digitByte 0] else (Nat.digits 10 u).reverse.map digitByte

/-- The value of a list of digits, most significant first. -/
def digitsValue (ds : List UInt8) : ℕ := ds.foldl (fun v b => 10*v+(b.toNat-48)) 0

/-- The number at the front of a list of bytes; zero when there is none. -/
def leadingNat (s : List UInt8) : ℕ := digitsValue (s.takeWhile isDigit)

/-- Whether a byte is white space. -/
def isSpace (b : UInt8) : Bool := decide (b.toNat = 32 ∨ 9 ≤ b.toNat ∧ b.toNat ≤ 13)

/-- The signed number at the front of a list of bytes, behind white space, cut
off at the ends of the signed 64-bit range. -/
def leadingInt (s : List UInt8) : ℤ :=
  match s.dropWhile isSpace with
  | 45 :: rest => max (-(leadingNat rest)) (-2 ^ 63)
  | 43 :: rest => min (leadingNat rest) (2 ^ 63-1)
  | rest => min (leadingNat rest) (2 ^ 63-1)

/-- The code of a digit. -/
theorem toNat_digitByte {d : ℕ} (h : d < 10) : (digitByte d).toNat = 48+d := by
  rw [digitByte, UInt8.toNat_ofNat']
  omega

/-- Digits are digits. -/
theorem isDigit_digitByte {d : ℕ} (h : d < 10) : isDigit (digitByte d) = true := by
  rw [isDigit, toNat_digitByte h]
  simp only [decide_eq_true_eq]
  omega

/-- A written number is made of digits only. -/
theorem isDigit_of_mem_decimal {u : ℕ} {b : UInt8} (h : b ∈ decimal u) : isDigit b = true := by
  unfold decimal at h
  split at h
  · rw [List.mem_singleton.mp h]
    exact isDigit_digitByte (by omega)
  · obtain ⟨d, hd, rfl⟩ := List.mem_map.mp h
    exact isDigit_digitByte (Nat.digits_lt_base (by omega) (List.mem_reverse.mp hd))

/-- The value of written digits, least significant first. -/
theorem digitsValue_map_reverse {ds : List ℕ} (h : ∀ d ∈ ds, d < 10) :
    digitsValue (ds.reverse.map digitByte) = Nat.ofDigits 10 ds := by
  induction ds with
  | nil => rfl
  | cons d ds ih =>
    have hd := toNat_digitByte (h d (List.mem_cons_self ..))
    have hds := ih fun e he => h e (List.mem_cons_of_mem _ he)
    unfold digitsValue at hds ⊢
    rw [List.reverse_cons, List.map_append, List.foldl_append, hds, List.map_singleton,
      List.foldl_cons, List.foldl_nil, hd, Nat.ofDigits_cons]
    omega

/-- A written number has its value. -/
theorem digitsValue_decimal (u : ℕ) : digitsValue (decimal u) = u := by
  unfold decimal
  split
  · next h => rw [h]; rfl
  · rw [digitsValue_map_reverse fun d hd => Nat.digits_lt_base (by omega) hd, Nat.ofDigits_digits]

/-- A written number followed by no digit is read back. -/
theorem leadingNat_decimal_append (u : ℕ) {rest : List UInt8}
    (h : ∀ b ∈ rest.head?, isDigit b = false) : leadingNat (decimal u ++ rest) = u := by
  have hrest : rest.takeWhile isDigit = [] := by
    cases rest with
    | nil => rfl
    | cons b rest => rw [List.takeWhile_cons, h b rfl]; rfl
  rw [leadingNat, List.takeWhile_append_of_pos fun b hb => isDigit_of_mem_decimal hb, hrest,
    List.append_nil, digitsValue_decimal]

/-- A written number starts with a digit. -/
theorem exists_decimal_eq_cons (u : ℕ) : ∃ b ds, decimal u = b :: ds ∧ isDigit b = true := by
  cases hu : decimal u with
  | nil =>
    unfold decimal at hu
    split at hu
    · cases hu
    · next hne =>
      have hnil := Nat.digits_eq_nil_iff_eq_zero.mp
        (List.reverse_eq_nil_iff.mp (List.map_eq_nil_iff.mp hu))
      exact absurd hnil hne
  | cons b ds =>
    have hmem : b ∈ decimal u := by
      rw [hu]
      exact List.mem_cons_self ..
    exact ⟨b, ds, rfl, isDigit_of_mem_decimal hmem⟩

/-- In front of a digit there is no white space and no sign. -/
theorem leadingInt_of_isDigit {b : UInt8} {s : List UInt8} (h : isDigit b = true) :
    leadingInt (b :: s) = min (leadingNat (b :: s) : ℤ) (2 ^ 63-1) := by
  have hb : 48 ≤ b.toNat ∧ b.toNat ≤ 57 := of_decide_eq_true h
  have hspace : isSpace b = false := by
    rw [isSpace, decide_eq_false_iff_not]
    omega
  have hminus : b ≠ 45 := by
    intro heq
    rw [heq] at hb
    exact absurd hb (by decide)
  have hplus : b ≠ 43 := by
    intro heq
    rw [heq] at hb
    exact absurd hb (by decide)
  unfold leadingInt
  rw [List.dropWhile_cons, if_neg (by rw [hspace]; exact Bool.false_ne_true)]
  split
  · next heq => exact absurd (List.cons.inj heq).1 hminus
  · next heq => exact absurd (List.cons.inj heq).1 hplus
  · rfl

/-- A written number below `2 ^ 63` and followed by no digit is read back as a
signed number. -/
theorem leadingInt_decimal_append {u : ℕ} (hu : u < 2 ^ 63) {rest : List UInt8}
    (h : ∀ b ∈ rest.head?, isDigit b = false) : leadingInt (decimal u ++ rest) = u := by
  have hnat := leadingNat_decimal_append u h
  obtain ⟨b, ds, hcons, hb⟩ := exists_decimal_eq_cons u
  rw [hcons, List.cons_append] at hnat ⊢
  rw [leadingInt_of_isDigit hb, hnat, min_eq_left (by omega)]

/-- Below a power of ten a written number has at most that many digits. -/
theorem length_decimal_le {u k : ℕ} (hk : 0 < k) (h : u < 10 ^ k) : (decimal u).length ≤ k := by
  unfold decimal
  split
  · exact hk
  · rw [List.length_map, List.length_reverse]
    exact (Nat.digits_length_le_iff (by omega) u).mpr h

end CapsuleDB.DecimalPrefix
