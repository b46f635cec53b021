import RegisterLang.Proofs.ReadingFiles
import RegisterLang.Proofs.Writing

/-!
# Which floats read back

A float is printed with an exponent if its shortest decimal is below a ten thousandth or not below a
million. The exponent has a sign, and no number token goes on after a sign, so that such a text stops
after its `e` and is no number. All other floats are read back.
-/
namespace RegisterLang
open Text Number

namespace Number

namespace Decimal
variable {d : Decimal}

/-- The first digit of a decimal stands just before its point moved by the exponent. -/
theorem value_bounds (h : d.digits ≠ 0) :
    (10 : ℚ) ^ (d.exponent + (Nat.toDigits 10 d.digits).length - 1) ≤ d.value ∧
      d.value < 10 ^ (d.exponent + (Nat.toDigits 10 d.digits).length) := by
  have hpos : 0 < (Nat.toDigits 10 d.digits).length := Nat.length_toDigits_pos
  have hhigh : d.digits < 10 ^ (Nat.toDigits 10 d.digits).length :=
    (Nat.length_toDigits_le_iff (by decide) hpos).mp (Nat.le_refl _)
  have hlow : 10 ^ ((Nat.toDigits 10 d.digits).length - 1) ≤ d.digits := by
    by_contra hlt
    by_cases hone : (Nat.toDigits 10 d.digits).length = 1
    · rw [hone] at hlt
      exact h (by simpa using hlt)
    · have hle := (Nat.length_toDigits_le_iff (by decide) (by omega)).mpr (Nat.lt_of_not_le hlt)
      omega
  generalize (Nat.toDigits 10 d.digits).length = n at *
  have hscale : (0 : ℚ) < 10 ^ d.exponent := zpow_pos (by norm_num) _
  have hsplit : ∀ k : ℕ, (10 : ℚ) ^ (d.exponent + k) = (10 ^ k : ℕ) * 10 ^ d.exponent := by
    intro k
    rw [zpow_add₀ (by norm_num), zpow_natCast, mul_comm]
    push_cast
    rfl
  have hlast : d.exponent + n - 1 = d.exponent + (n - 1 : ℕ) := by omega
  rw [hlast, hsplit, hsplit, value]
  constructor
  · exact mul_le_mul_of_nonneg_right (by exact_mod_cast hlow) hscale.le
  · exact mul_lt_mul_of_pos_right (by exact_mod_cast hhigh) hscale

theorem not_mem_numeral {ws fs : List Char} (hws : Digits ws) (hfs : Digits fs) :
    'e' ∉ numeral ws fs := by
  have hdigit : ∀ cs : List Char, Digits cs → 'e' ∉ cs := by
    intro cs hcs hmem
    exact absurd (hcs 'e' hmem) (by decide)
  unfold numeral
  split
  · exact hdigit ws hws
  · simp [hdigit ws hws, hdigit fs hfs]

/-- A decimal is written with an exponent outside of this range. -/
theorem mem_text_iff (h : d.digits ≠ 0) :
    'e' ∈ d.text.toList ↔ d.value < 10 ^ (-4 : ℤ) ∨ 10 ^ (6 : ℤ) ≤ d.value := by
  obtain ⟨hlow, hhigh⟩ := value_bounds h
  have hten : (1 : ℚ) < 10 := by norm_num
  by_cases hfar : d.exponent + (Nat.toDigits 10 d.digits).length < -3 ∨
      6 < d.exponent + (Nat.toDigits 10 d.digits).length
  · have htext : 'e' ∈ d.text.toList := by
      unfold text
      dsimp only
      rw [if_pos hfar]
      exact mem_scientific _ _
    apply iff_of_true htext
    rcases hfar with hsmall | hlarge
    · left
      exact hhigh.trans_le (zpow_le_zpow_right₀ hten.le (by omega))
    · right
      exact (zpow_le_zpow_right₀ hten.le (by omega)).trans hlow
  · obtain ⟨ws, fs, hspelling, heq⟩ := exists_positional d (by omega) (by omega)
    have htext : 'e' ∉ d.text.toList := by
      unfold text
      dsimp only
      rw [if_neg hfar, heq, String.toList_ofList]
      exact not_mem_numeral hspelling.whole hspelling.fraction
    apply iff_of_false htext
    rw [not_or, not_lt, not_le]
    constructor
    · exact (zpow_le_zpow_right₀ hten.le (by omega)).trans hlow
    · exact hhigh.trans_le (zpow_le_zpow_right₀ hten.le (by omega))

end Decimal

namespace Format
variable {f : Format} {bits : ℕ}

def decimal (f : Format) (bits : ℕ) : ℚ :=
  if (f.parts bits).1 = 0 then 0 else (f.neighbourhood bits).shortest.value

/-- The sign of a number has no part in its exponent. -/
theorem mem_text_magnitude_iff (h : f.IsFinite bits) :
    'e' ∈ (f.text bits).toList ↔ 'e' ∈ (f.text (f.magnitude bits)).toList := by
  have hsign : 'e' ∉ (if f.negative bits then "-" else "").toList := by
    split <;> decide
  rw [text_magnitude h, String.toList_append, List.mem_append, or_iff_right hsign]

theorem mem_text_iff (h : f.IsFinite bits) : 'e' ∈ (f.text bits).toList ↔
    f.decimal bits ≠ 0 ∧ (f.decimal bits < 10 ^ (-4 : ℤ) ∨ 10 ^ (6 : ℤ) ≤ f.decimal bits) := by
  rw [mem_text_magnitude_iff h, text_of_lt h, parts_magnitude, neighbourhood_magnitude, decimal]
  by_cases hzero : (f.parts bits).1 = 0
  · rw [if_pos hzero, if_pos hzero]
    simp
  · rw [if_neg hzero, if_neg hzero]
    have hpos := shortest_pos hzero
    have hdigits : (f.neighbourhood bits).shortest.digits ≠ 0 := by
      intro hnone
      rw [Decimal.value, hnone] at hpos
      simp at hpos
    rw [Decimal.mem_text_iff hdigits, and_iff_right hpos.ne']

end Format

end Number

structure Severed (s : String) (ws fs : List Char) : Prop where
  whole : Digits ws
  fraction : Digits fs
  nonempty : ws ≠ []
  cut : ∃ tail, s = String.ofList (numeral ws fs) ++ "e" ++ tail ∧
    ∀ rest, Lexeme.Ends (Bytes.ofString tail ++ rest)

namespace Severed
variable {s : String} {ws fs : List Char}

theorem append (h : Severed s ws fs) (s' : String) : Severed (s ++ s') ws fs := by
  obtain ⟨tail, rfl, hends⟩ := h.cut
  refine ⟨h.whole, h.fraction, h.nonempty, tail ++ s', by simp only [String.append_assoc], ?_⟩
  intro rest
  rw [Bytes.ofString_append, List.append_assoc]
  exact hends _

theorem ofScientific {digits : List Char} (h : Digits digits) (hne : digits ≠ []) (exponent : ℤ) :
    ∃ ws fs, Severed (scientific digits exponent) ws fs := by
  have hends : ∀ size rest,
      Lexeme.Ends (Bytes.ofString ((if exponent < 0 then "-" else "+") ++ size) ++ rest) := by
    intro size rest b hb
    rw [Bytes.ofString_append, List.append_assoc] at hb
    split at hb
    · rw [Bytes.ofString_eq "-"] at hb
      cases hb
      rfl
    · rw [Bytes.ofString_eq "+"] at hb
      cases hb
      rfl
  unfold scientific
  extract_lets mantissa size sign
  obtain ⟨ws, fs, hws, hfs, hwhole, hmantissa⟩ :
      ∃ ws fs, Digits ws ∧ Digits fs ∧ ws ≠ [] ∧ mantissa = numeral ws fs := by
    dsimp only [mantissa]
    match digits, hne with
    | [d], _ => exact ⟨[d], [], h, nofun, nofun, rfl⟩
    | d :: c :: rest, _ =>
      have hd : Digits [d] := List.forall_mem_singleton.mpr (h d List.mem_cons_self)
      exact ⟨[d], c :: rest, hd, fun a ha => h a (List.mem_cons_of_mem _ ha), nofun, rfl⟩
  rw [hmantissa, String.append_assoc]
  exact ⟨ws, fs, hws, hfs, hwhole, _, rfl, hends _⟩

theorem ofText {f : Format} {bits : ℕ} (h : f.IsFinite bits) (htext : 'e' ∈ (f.text bits).toList) :
    ∃ s ws fs, f.text bits = f.sign bits ++ s ∧ Severed s ws fs := by
  rw [Format.mem_text_magnitude_iff h, Format.text_of_lt h] at htext
  rw [Format.text_magnitude h, Format.text_of_lt h]
  by_cases hzero : (f.parts (f.magnitude bits)).1 = 0
  · rw [if_pos hzero] at htext
    exact absurd htext (by decide)
  · rw [if_neg hzero] at htext ⊢
    unfold Decimal.text at htext ⊢
    dsimp only at htext ⊢
    split at htext
    next hfar =>
      rw [if_pos hfar]
      obtain ⟨ws, fs, hsevered⟩ := ofScientific (Digits.toDigits _) Nat.toDigits_ne_nil _
      exact ⟨_, ws, fs, rfl, hsevered⟩
    next hnear =>
      obtain ⟨ws, fs, hspelling, heq⟩ := exists_positional
        (f.neighbourhood (f.magnitude bits)).shortest (by omega) (by omega)
      rw [heq, String.toList_ofList] at htext
      exact absurd htext (Decimal.not_mem_numeral hspelling.whole hspelling.fraction)

end Severed

namespace Number
variable {ws fs : List Char} (hws : Digits ws) (hfs : Digits fs) (hne : ws ≠ [])
include hws hfs hne

/-- The digits of a number end where its exponent begins. -/
theorem Mantissa.read_numeral {rest : Bytes} (hrest : ∀ m : Mantissa, m.read rest = (m, rest)) :
    ∃ m, Mantissa.read {} (digitBytes (numeral ws fs) ++ rest) = (m, rest) ∧ m.digit = true := by
  unfold numeral
  split
  · refine ⟨_, (read_digits hws {} rest).trans (hrest _), ?_⟩
    simp [hne]
  · have hbytes : digitBytes (ws ++ '.' :: fs) ++ rest =
        digitBytes ws ++ 46 :: (digitBytes fs ++ rest) := by simp [digitBytes]
    rw [hbytes, read_digits hws, read_point rfl, read_digits hfs, hrest]
    refine ⟨_, rfl, ?_⟩
    simp [hne]

/-- An exponent needs digits. -/
theorem Format.read_severed (f : Format) :
    f.read (digitBytes (numeral ws fs) ++ [101]) = .error .malformed := by
  have hstop : ∀ m : Mantissa, m.read [101] = (m, [101]) := by
    intro m
    simp [Mantissa.read]
  obtain ⟨m, hread, hdigit⟩ := Mantissa.read_numeral hws hfs hne hstop
  rw [Format.read, hread]
  dsimp only
  rw [hdigit, Bool.not_true, if_neg (by decide)]
  rfl

end Number

namespace Parser
open Lexeme Source
variable {s : String} {ws fs : List Char}

/-- A number that is cut off after its `e` is none. -/
theorem readNumber_severed (hws : Digits ws) (hfs : Digits fs) (hne : ws ≠ []) (pos : Pos) :
    readNumber pos (digitBytes (numeral ws fs) ++ [101]) =
      .error ⟨[.doubleLiteral], .fractional (digitBytes (numeral ws fs) ++ [101]) .malformed⟩ := by
  have hhex : ∀ b ∈ digitBytes (numeral ws fs) ++ [101], lower b ≠ 120 := by
    intro b hb
    rcases List.mem_append.mp hb with hb | hb
    · exact lower_ne (isPlace_numeral hws hfs b hb) (by decide)
    · rw [List.mem_singleton.mp hb]
      decide
  have hany : (digitBytes (numeral ws fs) ++ [101]).any (fun b => b = 46 || lower b = 101) = true :=
    List.any_eq_true.mpr ⟨101, by simp, by decide⟩
  have hlast : ((digitBytes (numeral ws fs) ++ [101]).getLast?.map lower).getD 0 = 101 := by
    rw [List.getLast?_append]
    rfl
  rw [readNumber]
  dsimp only
  rw [if_neg (not_hexadecimal hhex), hlast, if_neg (by decide), if_neg (by decide), hany, if_pos rfl,
    Format.read_severed hws hfs hne]

def cutOff (n : Bytes) : ParseError := ⟨[.doubleLiteral], .fractional n .malformed⟩

variable {lines : LineTable} {c : Cursor} {more : List Token} {n : Bytes}

theorem parsePrimary_cutOff (h : c.tokens = .number n :: more)
    (hn : ∀ pos, readNumber pos n = .error (cutOff n)) : parsePrimary lines c = .error (cutOff n) := by
  obtain ⟨stop, rest⟩ := c
  obtain ⟨l, rest, rfl, hl, _⟩ := Cursor.tokens_cons h
  rw [parsePrimary]
  dsimp only
  rw [hl, literal?, hn]
  rfl

def Signed (n : Bytes) (ts : List Token) : Prop := ts = [.number n] ∨ ts = [.punct .minus, .number n]

theorem parseUnary_cutOff {ts : List Token} (hts : Signed n ts) (h : c.tokens = ts ++ more)
    (hn : ∀ pos, readNumber pos n = .error (cutOff n)) : parseUnary lines c = .error (cutOff n) := by
  rcases hts with rfl | rfl
  · rw [parseUnary_primary h nofun, parsePrimary_cutOff h hn]
  · obtain ⟨stop, rest⟩ := c
    obtain ⟨l, rest, rfl, hl, hrest⟩ := Cursor.tokens_cons h
    rw [parseUnary]
    dsimp only
    rw [if_pos hl, parseUnary_primary (hrest _) nofun, parsePrimary_cutOff (hrest _) hn]
    rfl

theorem parseExpr_cutOff {ts : List Token} (hts : Signed n ts) (h : c.tokens = ts ++ more)
    (hn : ∀ pos, readNumber pos n = .error (cutOff n)) :
    parseExpr lines 0 c = .error (cutOff n) := by
  rw [parseExpr, parseUnary_cutOff hts h hn]
  rfl

theorem quietly_ok {α : Type} (a : α) : quietly (.ok a) = pure a := rfl

section
variable {sc : Scope} {f a : String} {ts : List Token} (hts : Signed n ts)
  (hn : ∀ pos, readNumber pos n = .error (cutOff n))
include hts hn

/-- A variable does not get a number that is cut off. -/
theorem parseStmt_cutOff (h : c.tokens = .ident a :: .punct .declare :: (ts ++ more)) :
    parseStmt sc c = quietly (.error ((cutOff n).within (.init a))) := by
  obtain ⟨stop, rest⟩ := c
  obtain ⟨l, rest, rfl, hl, hrest⟩ := Cursor.tokens_cons h
  obtain ⟨l', rest, rfl, hl', hrest'⟩ := Cursor.tokens_cons (hrest l.stop)
  rw [parseStmt]
  dsimp only
  rw [hl]
  dsimp only
  rw [parseNamed]
  dsimp only
  rw [hl']
  dsimp only
  rw [parseExpr_cutOff hts (hrest' _) hn]
  rfl

theorem parseBlock_cutOff
    (h : c.tokens = .punct .lbrace :: .ident a :: .punct .declare :: (ts ++ more)) :
    parseBlock sc c = quietly (.error ((cutOff n).within (.init a))) := by
  obtain ⟨⟨⟨stop, rest⟩, hd⟩, hbrace, hd'⟩ := expect_eq h
  have hstmt : parseStmt sc ⟨stop, rest⟩ = _ := parseStmt_cutOff hts hn hd'
  obtain ⟨l, rest, rfl, hl, _⟩ := Cursor.tokens_cons hd'
  rw [parseBlock, hbrace, quietly_ok, pure_bind]
  dsimp only
  rw [parseStmts]
  dsimp only
  rw [if_neg (by simp [hl]), if_neg (by simp [hl]), if_neg (by simp [hl]), hstmt]
  rfl

theorem parseFunction_cutOff {pos : Pos} (h : c.tokens = .punct .define :: .punct .lparen ::
      .punct .rparen :: .punct .lbrace :: .ident a :: .punct .declare :: (ts ++ more)) :
    parseFunction sc pos f c = quietly (.error ((cutOff n).within (.init a))) := by
  obtain ⟨⟨d, hdc⟩, hd, hd'⟩ := expect_eq h
  obtain ⟨⟨e, hed⟩, he, he'⟩ := expect_eq hd'
  obtain ⟨params, ⟨g, hg⟩, hparams, _, hg'⟩ :=
    parseParams_takes (s := sc) (List.forall_mem_nil _) #[] d.size e hed he'
  obtain ⟨ret, ⟨r, hr⟩, hret, _, hr'⟩ : TakesQuietly (parseRet sc c.size g (Nat.lt_trans hg hdc)) _ _ :=
    parseRet_takes (.inl rfl) hg'
  rw [parseFunction, hd, quietly_ok, pure_bind]
  dsimp only at he ⊢
  rw [he, quietly_ok, pure_bind]
  dsimp only
  rw [hparams, pure_bind]
  dsimp only
  rw [hret, pure_bind]
  dsimp only
  rw [parseBlock_cutOff hts hn hr']
  rfl

/-- A text whose first function begins with such a number is not parsed. -/
theorem parse_cutOff {name : String} {text : Bytes} (h : tokens text =
      .ident f :: .punct .define :: .punct .lparen :: .punct .rparen :: .punct .lbrace ::
        .ident a :: .punct .declare :: (ts ++ more)) :
    (parse name text).error = some ⟨[.func f, .init a, .doubleLiteral], .fractional n .malformed⟩ := by
  obtain ⟨l, rest, hscan, hl, hrest⟩ := Cursor.tokens_cons (c := ⟨0, scan text⟩) h
  change scan text = l :: rest at hscan
  rw [parse, hscan, parseItems]
  dsimp only
  rw [hl]
  dsimp only
  rw [parseFunction_cutOff hts hn (hrest _)]
  rfl

end

/-- A text that is a literal wherever it stands: the token of a number and perhaps a minus, which the
parser takes as the expression. -/
def Kept (s : String) (x : Expr) : Prop :=
  ∃ n ts, Signed n ts ∧ ∀ rest, Ends rest →
    tokens (Bytes.ofString s ++ rest) = ts ++ tokens rest ∧
    ∀ lines c, c.tokens = tokens (Bytes.ofString s ++ rest) → Follows 0 (tokens rest) →
      Takes (parseExpr lines 0 c) (fun y => y.erase = x.erase) (tokens rest)

/-- A text that is no expression wherever it stands: what is taken of it as a number is none. -/
def Refused (s : String) : Prop :=
  ∃ n ts, Signed n ts ∧ ∀ rest, ∃ more,
    tokens (Bytes.ofString s ++ rest) = ts ++ more ∧
    ∀ lines c, c.tokens = tokens (Bytes.ofString s ++ rest) →
      parseExpr lines 0 c = .error (cutOff n)

theorem kept_of_spells {x : Expr} {ts : List Token} (hsigned : Signed n ts) (hspells : Spells s ts)
    (hphrase : Phrase (.level 1 x) ts) : Kept s x := by
  refine ⟨n, ts, hsigned, fun rest hrest => ⟨hspells.tokens rest hrest, ?_⟩⟩
  intro lines c hc hfollows
  rw [hspells.tokens rest hrest] at hc
  exact parseExpr_takes (Phrase.reads hphrase) hc hfollows

theorem kept_numeric {pos : Pos} {x : Expr} (h : Numeric pos s x) : Kept s x := by
  cases h with
  | plain hnumeral hread =>
    have hliteral : literal? pos (.number (Bytes.ofString s)) = some (.ok x) := congrArg some hread
    exact kept_of_spells (.inl rfl) (spells_numeral hnumeral) (.operand (.literal hliteral))
  | @minus s x hnumeral hread =>
    have hliteral : literal? pos (.number (Bytes.ofString s)) = some (.ok x) := congrArg some hread
    exact kept_of_spells (.inr rfl) (spells_numeral hnumeral).minus
      (.operand (.minus (.literal hliteral)))

theorem refused_of_spells {ts : List Token} (hsigned : Signed n ts) (hspells : Spells s ts)
    (hn : ∀ pos, readNumber pos n = .error (cutOff n)) {tail : String}
    (hends : ∀ rest, Ends (Bytes.ofString tail ++ rest)) : Refused (s ++ tail) := by
  refine ⟨n, ts, hsigned, fun rest => ⟨tokens (Bytes.ofString tail ++ rest), ?_⟩⟩
  rw [Bytes.ofString_append, List.append_assoc, hspells.tokens _ (hends rest)]
  exact ⟨rfl, fun lines c hc => parseExpr_cutOff hsigned hc hn⟩

theorem refused_of_severed (h : Severed s ws fs) (negative : Bool) :
    Refused ((if negative then "-" else "") ++ s) := by
  obtain ⟨tail, rfl, hends⟩ := h.cut
  have hbytes : Bytes.ofString (String.ofList (numeral ws fs) ++ "e") =
      digitBytes (numeral ws fs) ++ [101] := by
    rw [Bytes.ofString_append, Numeric.ofString_numeral h.whole h.fraction, Bytes.ofString_eq "e"]
    rfl
  have hnumeral := isNumeral_numeral h.whole h.fraction h.nonempty
    (List.forall_mem_singleton.mpr (by decide : isNumberByte 101 = true))
  have hread := readNumber_severed h.whole h.fraction h.nonempty
  rw [← hbytes] at hnumeral hread
  have hspells := spells_numeral hnumeral
  cases negative with
  | false =>
    rw [if_neg (by decide), String.empty_append]
    exact refused_of_spells (.inl rfl) hspells hread hends
  | true =>
    rw [if_pos rfl, ← String.append_assoc]
    exact refused_of_spells (.inr rfl) hspells.minus hread hends

end Parser

inductive Expr.Finite : Expr → Prop
  | float {pos : Pos} {bits : UInt32} : Format.single.IsFinite bits.toNat →
      Expr.Finite (.float pos none bits)
  | double {pos : Pos} {bits : UInt64} : Format.double.IsFinite bits.toNat →
      Expr.Finite (.double pos none bits)

def Expr.decimal : Expr → ℚ
  | .float _ _ bits => Format.single.decimal bits.toNat
  | .double _ _ bits => Format.double.decimal bits.toNat
  | _ => 0

/-- Zero, or from a ten thousandth to below a million. -/
def Near (v : ℚ) : Prop := v = 0 ∨ 10 ^ (-4 : ℤ) ≤ v ∧ v < 10 ^ (6 : ℤ)

theorem Format.not_mem_text_iff {f : Format} {bits : ℕ} (h : f.IsFinite bits) :
    'e' ∉ (f.text bits).toList ↔ Near (f.decimal bits) := by
  rw [Format.mem_text_iff h, Near]
  push Not
  tauto

theorem Format.mem_text_of_far {f : Format} {bits : ℕ} (h : f.IsFinite bits)
    (hfar : ¬ Near (f.decimal bits)) : 'e' ∈ (f.text bits).toList := by
  by_contra hnot
  exact hfar ((Format.not_mem_text_iff h).mp hnot)

namespace Printer
open RegisterLang.Parser

theorem doubleText_of_mem {bits : UInt64} (h : 'e' ∈ (Format.double.text bits.toNat).toList) :
    doubleText bits = Format.double.text bits.toNat := by
  rw [doubleText, if_pos]
  exact List.any_eq_true.mpr ⟨'e', h, rfl⟩

/-- A float or a double is read back from what is printed of it exactly if its decimal is near enough
to one to be printed without an exponent; otherwise what is printed is no expression. -/
theorem parse_printed_number {x : Expr} (h : x.Finite) (prec : Nat) :
    ∃ s, printExpr prec x = .ok s ∧ (Near x.decimal → Kept s x) ∧ (¬ Near x.decimal → Refused s) := by
  cases h with
  | @float pos bits hfinite =>
    refine ⟨_, rfl, fun hnear => ?_, fun hfar => ?_⟩
    · exact kept_numeric (.float pos hfinite ((Format.not_mem_text_iff hfinite).mpr hnear))
    · obtain ⟨s, ws, fs, htext, hsevered⟩ :=
        Severed.ofText hfinite (Format.mem_text_of_far hfinite hfar)
      rw [htext, String.append_assoc]
      exact refused_of_severed (hsevered.append "f") _
  | @double pos bits hfinite =>
    refine ⟨_, rfl, fun hnear => ?_, fun hfar => ?_⟩
    · exact kept_numeric (.double pos hfinite ((Format.not_mem_text_iff hfinite).mpr hnear))
    · have hmem := Format.mem_text_of_far hfinite hfar
      obtain ⟨s, ws, fs, htext, hsevered⟩ := Severed.ofText hfinite hmem
      rw [doubleText_of_mem hmem, htext]
      exact refused_of_severed hsevered _

/-- The double that `1000000.0` denotes. -/
def million : Expr := .double .nowhere none 0x412e848000000000

theorem shortest_million : (Format.double.neighbourhood 0x412e848000000000).shortest = ⟨1, 6⟩ := by
  decide +kernel

theorem print_million : printExpr 0 million = .ok "1e+06" := by
  have htext : Format.double.text (0x412e848000000000 : UInt64).toNat = "1e+06" := by
    change Format.double.text 0x412e848000000000 = _
    rw [Format.text_of_lt (by decide), if_neg (by decide), shortest_million]
    decide
  rw [million, printExpr, doubleText, htext]
  rfl

def half : Expr := .float .nowhere none 0xc0200000

theorem shortest_half : (Format.single.neighbourhood 0xc0200000).shortest = ⟨25, -1⟩ := by
  decide +kernel

theorem print_half : printExpr 0 half = .ok "-2.5f" := by
  have htext : Format.single.text (0xc0200000 : UInt32).toNat = "-2.5" := by
    change Format.single.text 0xc0200000 = _
    rw [Format.text_magnitude (by decide), Format.text_of_lt (by decide),
      Format.neighbourhood_magnitude, shortest_half]
    decide
  rw [half, printExpr, htext]
  rfl

theorem parse_printed_number_half_million :
    (Near half.decimal ∧ printExpr 0 half = .ok "-2.5f" ∧ Kept "-2.5f" half) ∧
      ¬ Near million.decimal ∧ printExpr 0 million = .ok "1e+06" ∧ Refused "1e+06" := by
  have hnear : Near half.decimal := by
    change Near (Format.single.decimal 0xc0200000)
    rw [Format.decimal, if_neg (by decide), shortest_half, Decimal.value, Near]
    norm_num
  have hfar : ¬ Near million.decimal := by
    change ¬ Near (Format.double.decimal 0x412e848000000000)
    rw [Format.decimal, if_neg (by decide), shortest_million, Decimal.value, Near]
    norm_num
  obtain ⟨s, hs, hkept, _⟩ := parse_printed_number (x := half) (.float (by decide)) 0
  obtain ⟨t, ht, _, hrefused⟩ := parse_printed_number (x := million) (.double (by decide)) 0
  cases hs.symm.trans print_half
  cases ht.symm.trans print_million
  exact ⟨⟨hnear, hs, hkept hnear⟩, hfar, ht, hrefused hfar⟩

def placed : Bytes :=
  "f :: () \x7b\n\ta := 1e+06;\n\x7d\n".toList.map fun c => c.toNat.toUInt8

/-- A number is accepted and printed, but what is printed is not accepted. -/
theorem printed_million_fails :
    readNumber .nowhere [49, 48, 48, 48, 48, 48, 48, 46, 48] = .ok million ∧
      printExpr 0 million = .ok "1e+06" ∧
      (parse "p" placed).error =
        some ⟨[.func "f", .init "a", .doubleLiteral], .fractional [49, 101] .malformed⟩ := by
  have hread : Format.double.read [49, 48, 48, 48, 48, 48, 48, 46, 48] = .ok 0x412e848000000000 := by
    decide +kernel
  have htokens : decide (Lexeme.tokens placed = [.ident "f", .punct .define, .punct .lparen,
      .punct .rparen, .punct .lbrace, .ident "a", .punct .declare, .number [49, 101], .punct .plus,
      .number [48, 54], .punct .semicolon, .punct .rbrace, .eof]) = true := by
    decide +kernel
  have hcut : ∀ pos, readNumber pos [49, 101] = .error (cutOff [49, 101]) :=
    readNumber_severed (Digits.toDigits 1) (by simp [Digits] : Digits []) (by simp)
  refine ⟨?_, print_million, parse_cutOff (.inl rfl) hcut (of_decide_eq_true htokens)⟩
  rw [readNumber]
  dsimp only
  rw [if_neg (by decide), if_neg (by decide), if_neg (by decide), if_pos (by decide), hread]
  rfl

end Printer

end RegisterLang
