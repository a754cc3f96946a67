import Mathlib.Data.Nat.Digits

/-!
# C strings as the admin DBus methods read them

`admin_dbus_grace` works on C strings: `index` and `strstr` search them, `strcpy` copies one with
its terminator, writing a NUL cuts one short, and `atoi` reads a decimal number from one. A
`CString` is the list of characters before the terminator, which holds no NUL by construction;
`cstr` reads the C string stored at the start of a buffer.

`atoi` is glibc's: `strtol` in base 10, saturated to the range of a 64-bit `long`, then converted
to a 32-bit `int` by reduction modulo `2^32`. `strstr_singleton` says the two searches agree on a
one-character needle, and `atoi_decimal` that `atoi` reads back every `int` printed in decimal.
-/

namespace Ganesha.Admin

/-- The terminating NUL character. -/
def nul : Char := Char.ofNat 0

/-- A C string: the characters before its terminator. -/
structure CString where
  chars : List Char
  no_nul : nul ∉ chars

/-- The C string stored at the start of a buffer: its characters up to the first NUL. -/
def cstr (buf : List Char) : List Char := buf.takeWhile (· ≠ nul)

/-- The bytes of a C string in memory, terminator included: what `strcpy` copies. -/
def CString.bytes (s : CString) : List Char := s.chars ++ [nul]

/-- Concatenation of C strings. -/
def CString.append (p q : CString) : CString :=
  ⟨p.chars ++ q.chars, fun h => (List.mem_append.1 h).elim p.no_nul q.no_nul⟩

instance : Append CString := ⟨CString.append⟩

@[simp] theorem CString.append_chars (p q : CString) : (p ++ q).chars = p.chars ++ q.chars := rfl

/-- Reading a C string stops at the first NUL. -/
theorem cstr_append_nul {l : List Char} (h : nul ∉ l) (r : List Char) :
    cstr (l ++ nul :: r) = l := by
  have hl : ∀ c ∈ l, decide (c ≠ nul) = true := fun c hc =>
    decide_eq_true fun hn => h (hn ▸ hc)
  rw [cstr, List.takeWhile_append_of_pos hl]
  simp

theorem cstr_bytes (s : CString) : cstr s.bytes = s.chars := cstr_append_nul s.no_nul []

/-! ## Searching -/

/-- `index`: the position of the first `c` in a string, `none` for `NULL`. -/
def index : List Char → Char → Option Nat
  | [], _ => none
  | d :: rest, c => if d = c then some 0 else (index rest c).map (· + 1)

/-- `strstr`: the position of the first occurrence of `needle` in `hay`, `none` for `NULL`. -/
def strstr (hay needle : List Char) : Option Nat :=
  if hay.take needle.length = needle then some 0
  else match hay with
    | [] => none
    | _ :: rest => (strstr rest needle).map (· + 1)

/-- On a one-character needle, `strstr` finds what `index` finds. -/
theorem strstr_singleton (s : List Char) (c : Char) : strstr s [c] = index s c := by
  induction s with
  | nil => simp [strstr, index]
  | cons d rest ih => by_cases h : d = c <;> simp [strstr, index, ih, h]

/-- A prefix without `c` only shifts the position `index` finds. -/
theorem index_append_of_not_mem {l : List Char} {c : Char} (h : c ∉ l) (r : List Char) :
    index (l ++ r) c = (index r c).map (· + l.length) := by
  induction l with
  | nil => simp
  | cons d l ih =>
      have hd : d ≠ c := fun hd => h (hd ▸ List.mem_cons_self d l)
      rw [List.cons_append, index, if_neg hd, ih (fun hc => h (List.mem_cons_of_mem d hc)),
        Option.map_map]
      rfl

theorem index_eq_none {l : List Char} {c : Char} (h : c ∉ l) : index l c = none := by
  simpa [index] using index_append_of_not_mem h []

/-! ## Reading and printing numbers -/

/-- The C locale's `isspace`: space, and tab through carriage return. -/
def isSpace (c : Char) : Bool := c.toNat = 32 || (9 ≤ c.toNat && c.toNat ≤ 13)

/-- The value of a run of decimal digits. -/
def digitsValue (l : List Char) : Nat := l.foldl (fun n c => 10 * n + (c.toNat - 48)) 0

/-- The range of a C `int`: a 32-bit two's-complement value. -/
def signed32 (value : Int) : Prop := -(2 ^ 31) ≤ value ∧ value < 2 ^ 31

instance (value : Int) : Decidable (signed32 value) := inferInstanceAs (Decidable (_ ∧ _))

/-- A C `int`: an integer in the 32-bit two's-complement range. -/
structure CInt where
  val : Int
  range : signed32 val
  deriving DecidableEq, Repr

theorem signed32_bmod (x : Int) : signed32 (x.bmod (2 ^ 32)) :=
  ⟨by have := Int.le_bmod (x := x) (m := 2 ^ 32) (by norm_num); omega,
    by have := Int.bmod_lt (x := x) (m := 2 ^ 32) (by norm_num); omega⟩

/-- The conversion of a wider integer to `int`, which gcc makes by reduction modulo `2^32`. -/
def CInt.ofInt (x : Int) : CInt := ⟨x.bmod (2 ^ 32), signed32_bmod x⟩

/-- Converting a value that an `int` holds leaves it unchanged. -/
theorem CInt.ofInt_val (e : CInt) : CInt.ofInt e.val = e := by
  obtain ⟨v, h1, h2⟩ := e
  have hv : v.bmod (2 ^ 32) = v := by rw [Int.bmod_def]; split <;> omega
  simp only [CInt.ofInt, hv]

/-- `LONG_MIN`: `long` has 64 bits on the LP64 systems Ganesha runs on. -/
def longMin : Int := -(2 ^ 63)

/-- `LONG_MAX`. -/
def longMax : Int := 2 ^ 63 - 1

/-- The number `strtol` reads in base 10, before its range check: white space skipped, an
optional sign and the longest run of decimal digits. -/
def decimalValue (s : List Char) : Int :=
  match s.dropWhile isSpace with
  | [] => 0
  | c :: rest =>
      if c = '-' then -(digitsValue (rest.takeWhile Char.isDigit) : Int)
      else if c = '+' then digitsValue (rest.takeWhile Char.isDigit)
      else digitsValue ((c :: rest).takeWhile Char.isDigit)

/-- `strtol (s, NULL, 10)`: the number read, saturated to `LONG_MIN` or `LONG_MAX` when a `long`
cannot hold it. -/
def strtol (s : List Char) : Int := max longMin (min longMax (decimalValue s))

/-- glibc's `atoi`: `(int) strtol (s, NULL, 10)`. -/
def atoi (s : List Char) : CInt := CInt.ofInt (strtol s)

/-- A number too large for an `int` wraps: `"99999999999"` reads as `1215752191`. -/
example : atoi "99999999999".toList = CInt.ofInt 1215752191 := by decide

/-- The character of a decimal digit. -/
def digitChar (d : Nat) : Char := Char.ofNat (48 + d)

/-- The decimal digits of a natural number, most significant first. -/
def natChars (n : Nat) : List Char :=
  if n = 0 then [digitChar 0] else (Nat.digits 10 n).reverse.map digitChar

/-- An integer printed in decimal, with a minus sign when it is negative. -/
def decimalChars (e : Int) : List Char :=
  (if e < 0 then ['-'] else []) ++ natChars e.natAbs

/-- What a digit's character is, and is not. -/
theorem digitChar_spec : ∀ d < 10,
    (digitChar d).isDigit = true ∧ (digitChar d).toNat - 48 = d ∧
    isSpace (digitChar d) = false ∧ digitChar d ≠ '-' ∧ digitChar d ≠ '+' ∧
    digitChar d ≠ ':' ∧ digitChar d ≠ nul := by
  decide

theorem mem_natChars {n : Nat} {c : Char} (h : c ∈ natChars n) : ∃ d < 10, digitChar d = c := by
  unfold natChars at h
  split at h
  · exact ⟨0, by omega, (List.mem_singleton.1 h).symm⟩
  · obtain ⟨d, hd, rfl⟩ := List.mem_map.1 h
    exact ⟨d, Nat.digits_lt_base (by omega) (List.mem_reverse.1 hd), rfl⟩

theorem natChars_ne_nil (n : Nat) : natChars n ≠ [] := by
  unfold natChars
  split
  · simp
  · simpa [Nat.digits_eq_nil_iff_eq_zero]

/-- Reading the digits of a little-endian digit list printed most significant first gives its
value. -/
theorem digitsValue_reverse_map {L : List Nat} (hL : ∀ d ∈ L, d < 10) :
    digitsValue (L.reverse.map digitChar) = Nat.ofDigits 10 L := by
  induction L with
  | nil => rfl
  | cons d L ih =>
      have hd := (digitChar_spec d (hL d (List.mem_cons_self d L))).2.1
      have ih := ih fun d hd => hL d (List.mem_cons_of_mem _ hd)
      simp only [digitsValue, List.reverse_cons, List.map_append, List.foldl_append] at ih ⊢
      simp only [ih, List.map_singleton, List.foldl_cons, List.foldl_nil, hd, Nat.ofDigits_cons,
        Nat.cast_id]
      omega

theorem digitsValue_natChars (n : Nat) : digitsValue (natChars n) = n := by
  unfold natChars
  split
  · subst_vars; decide
  · rw [digitsValue_reverse_map fun d hd => Nat.digits_lt_base (by omega) hd, Nat.ofDigits_digits]

theorem takeWhile_isDigit_natChars (n : Nat) : (natChars n).takeWhile Char.isDigit = natChars n :=
  List.takeWhile_eq_self_iff.2 fun c hc => by
    obtain ⟨d, hd, rfl⟩ := mem_natChars hc
    exact (digitChar_spec d hd).1

/-- `strtol` reads the decimal digits of `n` as `n`, before its range check. -/
theorem decimalValue_natChars (n : Nat) : decimalValue (natChars n) = n := by
  obtain ⟨c, rest, hcr⟩ := List.exists_cons_of_ne_nil (natChars_ne_nil n)
  obtain ⟨d, hd, rfl⟩ := mem_natChars (hcr ▸ List.mem_cons_self c rest)
  obtain ⟨-, -, hsp, hminus, hplus, -⟩ := digitChar_spec d hd
  rw [decimalValue, hcr, List.dropWhile_cons_of_neg (by simp [hsp])]
  dsimp only
  rw [if_neg hminus, if_neg hplus, ← hcr, takeWhile_isDigit_natChars, digitsValue_natChars]

theorem mem_decimalChars {e : Int} {c : Char} (h : c ∈ decimalChars e) :
    c = '-' ∨ ∃ d < 10, digitChar d = c := by
  rcases List.mem_append.1 h with h | h
  · split at h <;> simp_all
  · exact .inr (mem_natChars h)

/-- A printed integer holds no NUL and no colon. -/
theorem decimalChars_not_mem {e : Int} {c : Char} (hc : c = nul ∨ c = ':') :
    c ∉ decimalChars e :=
  fun h => by
    rcases mem_decimalChars h with rfl | ⟨d, hd, rfl⟩
    · revert hc; decide
    · have := digitChar_spec d hd
      rcases hc with h | h <;> simp_all

/-- `e` printed in decimal, as a C string. -/
def decimal (e : Int) : CString := ⟨decimalChars e, decimalChars_not_mem (.inl rfl)⟩

/-- `strtol` reads every integer printed in decimal as itself, before its range check. -/
theorem decimalValue_decimalChars (e : Int) : decimalValue (decimalChars e) = e := by
  rcases Int.lt_or_le e 0 with he | he
  · have hsp : isSpace '-' = false := by decide
    have hdrop : ('-' :: natChars e.natAbs).dropWhile isSpace = '-' :: natChars e.natAbs :=
      List.dropWhile_cons_of_neg (by simp [hsp])
    simp only [decimalChars, if_pos he, List.singleton_append, decimalValue, hdrop, if_true,
      takeWhile_isDigit_natChars, digitsValue_natChars]
    omega
  · simp only [decimalChars, if_neg (Int.not_lt.2 he), List.nil_append, decimalValue_natChars]
    omega

/-- `atoi` reads back every `int` printed in decimal. -/
theorem atoi_decimal (e : CInt) : atoi (decimal e.val).chars = e := by
  have hlong : strtol (decimal e.val).chars = e.val := by
    have := e.range
    simp only [strtol, decimal, decimalValue_decimalChars, longMin, longMax, signed32] at this ⊢
    omega
  rw [atoi, hlong, CInt.ofInt_val]

end Ganesha.Admin
