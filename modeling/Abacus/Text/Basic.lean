/-! Text as a list of characters: the classes of characters that formulas are made of, white space,
neighbouring characters, and parentheses. -/

namespace Abacus

/-! Text as a list of characters, the classes of characters that formulas are made of, and the name
that ends at a given place of a text. Places are given by the characters before them, last one
first. -/

/-- What is typed, stored and printed. -/
abbrev Text := List Char

/-- The characters besides letters and digits that a formula may hold. -/
def specialCharacters : Text := ['(', ')', '.', ',', '!', '^', '+', '-', '*', '/', '_']

def isSpecial (c : Char) : Bool := specialCharacters.contains c

def isNameStart (c : Char) : Bool := c.isAlpha || c == '_'

def isWordCharacter (c : Char) : Bool := c.isAlphanum || c == '_'

/-- The longest run of letters, digits and underscores that ends here, without its leading
digits. -/
def nameBefore (before : Text) : Text :=
  (before.takeWhile isWordCharacter).reverse.dropWhile Char.isDigit

/-- A variable or formula may be called `[a-z_][a-z0-9_]*`. -/
def isIdentifier : Text → Bool
  | [] => false
  | c :: rest => (c.isLower || c == '_') && rest.all fun d => d.isLower || d.isDigit || d == '_'

/-- The decimal digits of a natural number. -/
def natText (n : Nat) : Text := Nat.toDigits 10 n

/-- The pieces one after the other with `separator` between them. -/
def joinWith (separator : Text) : List Text → Text
  | [] => []
  | [piece] => piece
  | piece :: rest => piece ++ separator ++ joinWith separator rest

/-! White space: the 25 characters with the Unicode property of that name. -/

/-- Closed ranges of code points, ascending and apart. -/
def blankRanges : List (Nat × Nat) :=
  [(0x09, 0x0D), (0x20, 0x20), (0x85, 0x85), (0xA0, 0xA0), (0x1680, 0x1680), (0x2000, 0x200A),
   (0x2028, 0x2029), (0x202F, 0x202F), (0x205F, 0x205F), (0x3000, 0x3000)]

def isBlank (c : Char) : Bool := blankRanges.any fun r => r.1 ≤ c.toNat && c.toNat ≤ r.2

def withoutBlanks (t : Text) : Text := t.filter fun c => !isBlank c

/-- Without the white space at both ends. -/
def trim (t : Text) : Text := ((t.dropWhile isBlank).reverse.dropWhile isBlank).reverse

/-! Two neighbouring characters: whether a text holds such a pair, and putting something else in its
place. -/

def hasPair (a b : Char) : Text → Bool
  | x :: y :: rest => (x == a && y == b) || hasPair a b (y :: rest)
  | _ => false

/-- Writes `r` for every pair `a b`, from left to right; the characters of a pair are used up by
it. -/
def replacePair (a b : Char) (r : Text) : Text → Text
  | x :: y :: rest =>
    if x = a ∧ y = b then r ++ replacePair a b r rest else x :: replacePair a b r (y :: rest)
  | t => t

theorem replacePair_cons_cons (a b : Char) (r : Text) (x y : Char) (rest : Text) :
    replacePair a b r (x :: y :: rest) =
      if x = a ∧ y = b then r ++ replacePair a b r rest
      else x :: replacePair a b r (y :: rest) := by
  rw [replacePair]

/-- Nothing is changed in a text without the pair. -/
theorem replacePair_of_not_hasPair {a b : Char} {r t : Text} (h : hasPair a b t = false) :
    replacePair a b r t = t := by
  fun_induction replacePair a b r t with
  | case1 x y rest hxy ih => simp [hasPair, hxy] at h
  | case2 x y rest hxy ih =>
    simp only [hasPair, Bool.or_eq_false_iff] at h
    rw [ih h.2]
  | case3 t => rfl

/-- A replacement that holds `c` as often as the pair does keeps the number of `c`. -/
theorem count_replacePair (c a b : Char) (r : Text) (hr : r.count c = [a, b].count c) (t : Text) :
    (replacePair a b r t).count c = t.count c := by
  fun_induction replacePair a b r t with
  | case1 x y rest hxy ih =>
    obtain ⟨rfl, rfl⟩ := hxy
    have : (x :: y :: rest).count c = [x, y].count c + rest.count c := by
      rw [← List.count_append]; rfl
    rw [List.count_append, ih, hr, this]
  | case2 x y rest hxy ih => simp [List.count_cons, ih]
  | case3 t => rfl

theorem length_replacePair_le (a b : Char) (r : Text) (hr : r.length ≤ 2) (t : Text) :
    (replacePair a b r t).length ≤ t.length := by
  fun_induction replacePair a b r t with
  | case1 x y rest hxy ih => simp; omega
  | case2 x y rest hxy ih => simp at ih ⊢; omega
  | case3 t => simp

/-! Parentheses: whether a text is balanced, the group that an opening parenthesis begins, the
places outside all groups, and runs of text that end where their group ends. -/

/-- The depth after a character; a closing parenthesis without its opening one leaves it at zero. -/
def depthAfter (c : Char) (depth : Nat) : Nat :=
  if c = '(' then depth + 1 else if c = ')' then depth - 1 else depth

def isBalancedFrom : Nat → Text → Bool
  | depth, [] => depth == 0
  | depth, c :: rest => !(c == ')' && depth == 0) && isBalancedFrom (depthAfter c depth) rest

def isBalanced (t : Text) : Bool := isBalancedFrom 0 t

/-- After an opening parenthesis: the text up to the one that closes it, and the text after that. -/
def splitGroup : Nat → Text → Option (Text × Text)
  | _, [] => none
  | depth, c :: rest =>
    if c = ')' ∧ depth = 0 then some ([], rest)
    else (splitGroup (depthAfter c depth) rest).map fun p => (c :: p.1, p.2)

theorem splitGroup_eq_some {depth : Nat} {t inside after : Text}
    (h : splitGroup depth t = some (inside, after)) : t = inside ++ ')' :: after := by
  fun_induction splitGroup depth t generalizing inside after with
  | case1 => simp at h
  | case2 depth c rest hc =>
    obtain ⟨rfl, rfl⟩ : [] = inside ∧ rest = after := by simpa using h
    simp [hc.1]
  | case3 depth c rest hc ih =>
    obtain ⟨⟨i, a⟩, hp, he⟩ := Option.map_eq_some_iff.mp h
    obtain ⟨rfl, rfl⟩ : c :: i = inside ∧ a = after := by simpa using he
    rw [ih hp]
    rfl

/-- Without the parentheses that enclose the whole text; an empty pair of them stays. -/
def withoutOuterGroups : Text → Text
  | [] => []
  | c :: rest =>
    if c = '(' then
      match _closed : splitGroup 0 rest with
      | some (d :: inside, []) => withoutOuterGroups (d :: inside)
      | _ => c :: rest
    else c :: rest
termination_by t => t.length
decreasing_by
  have := congrArg List.length (splitGroup_eq_some _closed)
  simp at this ⊢
  omega

theorem length_withoutOuterGroups_le (t : Text) : (withoutOuterGroups t).length ≤ t.length := by
  fun_induction withoutOuterGroups t with
  | case1 => exact Nat.le_refl _
  | case2 rest d inside hgroup ih =>
    have := congrArg List.length (splitGroup_eq_some hgroup)
    simp only [List.length_append, List.length_cons] at this ih ⊢
    omega
  | case3 => exact Nat.le_refl _
  | case4 => exact Nat.le_refl _

/-- The text before the first `separator` outside all groups, and the texts after each such one. -/
def piecesAtTop (separator : Char) : Nat → Text → Text × List Text
  | _, [] => ([], [])
  | depth, c :: rest =>
    if c = separator ∧ depth = 0 then
      ([], (piecesAtTop separator 0 rest).1 :: (piecesAtTop separator 0 rest).2)
    else (piecesAtTop separator (depthAfter c depth) rest).map (c :: ·) id

/-- Separators are ASCII characters; the one that texts are split at is the comma. -/
def splitAtTop (separator : Char) (t : Text) : List Text :=
  (piecesAtTop separator 0 t).1 :: (piecesAtTop separator 0 t).2

/-- The texts before and after the last `sign` outside all groups; a sign counts if the character
before it does not speak against it. -/
def splitAtLast? (sign : Char) (after : Option Char → Bool) :
    Nat → Option Char → Text → Option (Text × Text)
  | _, _, [] => none
  | depth, previous, c :: rest =>
    match splitAtLast? sign after (depthAfter c depth) (some c) rest with
    | some (left, right) => some (c :: left, right)
    | none => if c = sign ∧ depth = 0 ∧ after previous then some ([], rest) else none

/-- The longest run in which groups are whole and outside them no character stops it, and what comes
after it. With the parentheses exchanged it is read backwards. -/
def runWith (opening closing : Char) (stops : Char → Bool) : Nat → Text → Text × Text
  | _, [] => ([], [])
  | depth, c :: rest =>
    if c = opening then (runWith opening closing stops (depth + 1) rest).map (c :: ·) id
    else if depth = 0 ∧ (c = closing ∨ stops c) then ([], c :: rest)
    else (runWith opening closing stops (if c = closing then depth - 1 else depth) rest).map
      (c :: ·) id

theorem runWith_append (opening closing : Char) (stops : Char → Bool) (depth : Nat) (t : Text) :
    (runWith opening closing stops depth t).1 ++ (runWith opening closing stops depth t).2 = t := by
  fun_induction runWith opening closing stops depth t <;> simp_all

/-- The lengths of some texts together, each counted one more than it is. -/
def totalLength : List Text → Nat
  | [] => 0
  | t :: rest => t.length + 1 + totalLength rest

theorem length_lt_totalLength {t : Text} {ts : List Text} (h : t ∈ ts) :
    t.length < totalLength ts := by
  induction h with
  | head rest => simp only [totalLength]; omega
  | tail u _ ih => simp only [totalLength]; omega

theorem piecesAtTop_length (separator : Char) (depth : Nat) (t : Text) :
    (piecesAtTop separator depth t).1.length + totalLength (piecesAtTop separator depth t).2 =
      t.length := by
  fun_induction piecesAtTop separator depth t <;> simp_all +arith [totalLength]

theorem splitAtLast?_eq_some {sign : Char} {after : Option Char → Bool} {depth : Nat}
    {previous : Option Char} {t left right : Text}
    (h : splitAtLast? sign after depth previous t = some (left, right)) :
    t = left ++ sign :: right := by
  fun_induction splitAtLast? sign after depth previous t generalizing left right with
  | case1 => simp at h
  | case2 depth previous c rest l r hl ih =>
    obtain ⟨rfl, rfl⟩ : c :: l = left ∧ r = right := by simpa using h
    rw [ih hl]
    rfl
  | case3 depth previous c rest hl hc ih =>
    obtain ⟨rfl, rfl⟩ : [] = left ∧ rest = right := by simpa using h
    simp [hc.1]
  | case4 => simp at h

end Abacus
