import RegisterLang.Proofs.ReadingFiles
import RegisterLang.Proofs.Writing

/-!
# Printing and parsing

A tree that comes from a text without a report, printed and parsed again, is the same tree but for its
positions and for empty `else` blocks, which are not printed.
-/
namespace RegisterLang
open Text Source RegisterLang.Parser

theorem name_parseItems (lines : LineTable) (p : Parsed) (c : Cursor) :
    (parseItems lines p c).file.name = p.file.name := by
  induction hn : c.size using Nat.strongRecOn generalizing p c with
  | ind n ih =>
    unfold parseItems
    split
    · rfl
    next l rest hrest =>
      have hl : Cursor.size ⟨l.stop, rest⟩ < c.size := Cursor.size_tail hrest
      dsimp only
      split
      · rfl
      · split
        next name fields d hd ds heq =>
          rw [ih d.size (by omega) _ d rfl, Parsed.define]
          split <;> rfl
        · rfl
      · split
        next f d hd ds heq => rw [ih d.size (by omega) _ d rfl]
        · rfl
      · rfl

/-- A text with the tokens of a file is parsed as that file. -/
theorem parse_of_tokens {p : Parsed} (hp : PlainFile p) {name : String} (hname : p.file.name = name)
    {text : Bytes} {tss : List (List Token)}
    (htss : List.Forall₂ (FunctionTokens p.types) p.file.functions tss)
    (htext : Lexeme.tokens text =
      p.file.typedefs.flatMap (fun t => recordTokens t.record) ++ tss.flatten ++ [Token.eof]) :
    (parse name text).error = none ∧ (parse name text).diagnostics = #[] ∧
      (parse name text).file.erase = p.file.erase := by
  have htokens : Cursor.tokens ⟨0, Lexeme.scan text⟩ = p.file.typedefs.flatMap
      (fun t => recordTokens t.record) ++ (tss.flatten ++ [Token.eof]) := by
    rw [← List.append_assoc]
    exact htext
  obtain ⟨rs, d, heq, hrs, hd⟩ := parseItems_typedefs (LineTable.ofText text) name hp.typedefs htokens
  obtain ⟨fs, e, heq', hfs, he⟩ := parseItems_functions (LineTable.ofText text)
    (p := ⟨{ name, typedefs := rs }, p.types, #[], none⟩) hp.functions htss hd
  have hparse : parse name text =
      ⟨{ name, typedefs := rs, functions := fs }, p.types, #[], none⟩ := by
    rw [parse, heq, heq', parseItems_eof _ he]
    rfl
  rw [hparse]
  refine ⟨rfl, rfl, ?_⟩
  rw [File.erase, File.erase, hrs, hfs, hname]

/-- What is printed of a file that was parsed without a report, and holds no number that is written with
an exponent, is parsed without a report to the same file. -/
theorem parse_print {name : String} {text : Bytes} {s : String}
    (hquiet : (parse name text).diagnostics = #[])
    (hprint : Printer.print (.file (parse name text).file) = .ok s)
    (hplain : (parse name text).file.scientific = false) :
    (parse name (Bytes.ofString s)).error = none ∧ (parse name (Bytes.ofString s)).diagnostics = #[] ∧
      (parse name (Bytes.ofString s)).file.erase = (parse name text).file.erase := by
  have hfile := parse_plain hquiet
  obtain ⟨tss, htss, hclosed⟩ :=
    Printer.printFile_written hfile.typedefs hfile.functions hplain hprint
  have htokens := hclosed []
  rw [List.append_nil, Lexeme.tokens_nil] at htokens
  exact parse_of_tokens hfile (name_parseItems _ _ _) htss htokens

def reprint? (text : Bytes) : Option String :=
  let p := parse "p" text
  if p.diagnostics.isEmpty && !p.file.scientific then (Printer.print (.file p.file)).toOption else none

theorem exists_of_reprint? {text : Bytes} {s : String} (h : reprint? text = some s) :
    (parse "p" text).diagnostics = #[] ∧ (parse "p" text).file.scientific = false ∧
      Printer.print (.file (parse "p" text).file) = .ok s := by
  unfold reprint? at h
  dsimp only at h
  split at h
  next hquiet =>
    rw [Bool.and_eq_true, Array.isEmpty_iff, Bool.not_eq_true'] at hquiet
    refine ⟨hquiet.1, hquiet.2, ?_⟩
    cases hprint : Printer.print (.file (parse "p" text).file) with
    | error e =>
      rw [hprint] at h
      cases h
    | ok s' =>
      rw [hprint] at h
      rw [Option.some.inj h]
  · cases h

/-- Signs, parentheses, a number with a point, and an `else` without statements. -/
def crowded : Bytes :=
  "f::(){b:=2*(a- -0.0);if b>0{}else{}}".toList.map fun c => c.toNat.toUInt8

theorem parse_print_crowded :
    (parse "p" crowded).diagnostics = #[] ∧ (parse "p" crowded).file.scientific = false ∧
      ∃ s, Printer.print (.file (parse "p" crowded).file) = .ok s ∧
        (parse "p" (Bytes.ofString s)).error = none ∧ (parse "p" (Bytes.ofString s)).diagnostics = #[] ∧
        (parse "p" (Bytes.ofString s)).file.erase = (parse "p" crowded).file.erase := by
  have h : reprint? crowded =
      some "f :: () \x7b\n\tb := 2 * (a - -0.0);\n\tif b > 0 \x7b\n\t\x7d\n\x7d\n" := by
    decide +kernel
  obtain ⟨hquiet, hplain, hprint⟩ := exists_of_reprint? h
  exact ⟨hquiet, hplain, _, hprint, parse_print hquiet hprint hplain⟩

end RegisterLang
