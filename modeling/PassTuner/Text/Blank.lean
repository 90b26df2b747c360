/-!
# White space

The Unicode `White_Space` property, and the three things the library does with it: trimming,
splitting into fields, and measuring how far a line is indented. Indentation is counted in bytes of
the UTF-8 form, so an ideographic space counts for three.
-/

namespace PassTuner.Text

/-- Code points with the property `White_Space`. -/
def isBlank (c : Char) : Bool :=
  let n := c.toNat
  (9 ≤ n && n ≤ 13) || n == 0x20 || n == 0x85 || n == 0xA0 || n == 0x1680 ||
    (0x2000 ≤ n && n ≤ 0x200A) || n == 0x2028 || n == 0x2029 || n == 0x202F || n == 0x205F ||
    n == 0x3000

/-- The text without the blanks it starts with. -/
def trimStart (text : List Char) : List Char := text.dropWhile isBlank

/-- The text without the blanks it ends with. -/
def trimEnd (text : List Char) : List Char := (text.reverse.dropWhile isBlank).reverse

def trim (text : List Char) : List Char := trimEnd (trimStart text)

def isBlankLine (line : List Char) : Bool := line.all isBlank

/-- The maximal runs of characters that are not blank, in order. -/
def fields : List Char → List (List Char)
  | [] => []
  | c :: rest =>
    if isBlank c then fields rest
    else match rest with
      | [] => [[c]]
      | d :: _ =>
        if isBlank d then [c] :: fields rest
        else match fields rest with
          | [] => [[c]]
          | word :: words => (c :: word) :: words

theorem fields_nil : fields [] = [] := rfl

theorem fields_cons_blank {c : Char} (rest : List Char) (h : isBlank c) :
    fields (c :: rest) = fields rest := by
  rw [fields.eq_def]; simp [h]

/-- Bytes of the UTF-8 form. -/
def byteLength (text : List Char) : Nat := text.foldl (fun n c => n + c.utf8Size) 0

/-- Bytes of white space in front of the first character that is not blank. -/
def indentation (line : List Char) : Nat := byteLength (line.takeWhile isBlank)

end PassTuner.Text
