/-!
# Quoted text

Text is quoted with `'`, or with `"` when it holds a `'` and no `"`. The quote in use, the
backslash and characters that cannot be printed are escaped; every other character stands for
itself. The host says which characters beyond ASCII it can print.
-/

namespace JsonShape.Quoted

def quoteOf (cs : List Char) : Char :=
  if '\'' ∈ cs ∧ '"' ∉ cs then '"' else '\''

def hexDigit (n : Nat) : Char :=
  if n < 10 then Char.ofNat (48 + n) else Char.ofNat (87 + n)

/-- The last hexadecimal digits of a number. -/
def hexDigits : Nat → Nat → List Char
  | 0, _ => []
  | count + 1, n => hexDigits count (n / 16) ++ [hexDigit (n % 16)]

/-- A character by its number. -/
def numbered (n : Nat) : List Char :=
  if n < 0x100 then '\\' :: 'x' :: hexDigits 2 n
  else if n < 0x10000 then '\\' :: 'u' :: hexDigits 4 n
  else '\\' :: 'U' :: hexDigits 8 n

/-- The characters of ASCII that can be printed are known; `printable` decides on the others. -/
def escape (printable : Char → Bool) (quote c : Char) : List Char :=
  if c = quote ∨ c = '\\' then ['\\', c]
  else if c = '\n' then ['\\', 'n']
  else if c = '\r' then ['\\', 'r']
  else if c = '\t' then ['\\', 't']
  else if 32 ≤ c.toNat ∧ c.toNat < 127 ∨ 127 < c.toNat ∧ printable c then [c]
  else numbered c.toNat

def encode (printable : Char → Bool) (cs : List Char) : List Char :=
  quoteOf cs :: cs.flatMap (escape printable (quoteOf cs)) ++ [quoteOf cs]

def text (printable : Char → Bool) (s : String) : String :=
  String.ofList (encode printable s.toList)

example : text (fun _ => false) "a'\n\u200b" = "\"a'\\n\\u200b\"" := by decide

end JsonShape.Quoted
