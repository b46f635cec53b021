import RegisterLang.Text.Quoted

/-!
# Templates of messages

In a template `%d` stands for a number, `%s` for a text, `%q` for a quoted text or character, `%v` for
either, and `%%` for a percent sign. What does not fit is shown in place: a value of the wrong kind, a
place without a value, and the values that are left over.
-/
namespace RegisterLang.Text

inductive TemplateArg where
  | int (n : Int)
  | string (s : String)
  deriving DecidableEq, Repr

namespace TemplateArg

def text : TemplateArg → String
  | int n => toString n
  | string s => s

def kind : TemplateArg → String
  | int _ => "int"
  | string _ => "string"

/-- The kind and the value. -/
def described (a : TemplateArg) : String := a.kind ++ "=" ++ a.text

/-- The value as a verb shows it. -/
def shown (verb : Char) : TemplateArg → String
  | int n =>
    match verb with
    | 'd' | 'v' => toString n
    | 'q' => quoteChar n
    | _ => "%!" ++ verb.toString ++ "(" ++ (int n).described ++ ")"
  | string s =>
    match verb with
    | 's' | 'v' => s
    | 'q' => quote s
    | _ => "%!" ++ verb.toString ++ "(" ++ (string s).described ++ ")"

end TemplateArg

/-- What is said of values that no place took. -/
def leftOver : List TemplateArg → String
  | [] => ""
  | args => "%!(EXTRA " ++ ", ".intercalate (args.map TemplateArg.described) ++ ")"

/-- A template with its places filled, after the text `done`. -/
def fillFrom (done : String) : List Char → List TemplateArg → String
  | [], args => done ++ leftOver args
  | ['%'], args => done ++ "%!(NOVERB)" ++ leftOver args
  | '%' :: '%' :: rest, args => fillFrom (done.push '%') rest args
  | '%' :: verb :: rest, [] => fillFrom (done ++ "%!" ++ verb.toString ++ "(MISSING)") rest []
  | '%' :: verb :: rest, a :: args => fillFrom (done ++ a.shown verb) rest args
  | c :: rest, args => fillFrom (done.push c) rest args

def fill (template : String) (args : List TemplateArg) : String :=
  fillFrom "" template.toList args

end RegisterLang.Text
