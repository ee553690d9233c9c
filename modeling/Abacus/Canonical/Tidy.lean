import Abacus.Name.Registry

/-! How a text is made tidy, and what it is refused for on the way. -/

namespace Abacus

/-! What is wrong with a text on its face, whatever its names mean. -/

def checkNotTrivial : Text → Except ReadError Unit
  | [] => .error .nothing
  | [c] => if isSpecial c then .error (.onlyASign c) else .ok ()
  | _ => .ok ()

def checkBalance (t : Text) : Except ReadError Unit :=
  if isBalanced t then .ok () else .error .unbalanced

/-- The end is looked at first. -/
def checkEnds (t : Text) : Except ReadError Unit :=
  match t.getLast?.filter ['+', '-', '*', '/', ',', '^'].contains with
  | some c => .error (.endsWith c)
  | none =>
    match t.head?.filter ['*', '/', '^', '!', ','].contains with
    | some c => .error (.beginsWith c)
    | none => .ok ()

/-- Signs that may not follow one another; the first of this list that occurs is the one that is
reported. -/
def forbiddenPairs : List (Char × Char) :=
  [('(', '*'), ('(', '/'), ('(', '^'), ('(', '!'), ('(', ','),
   ('+', ')'), ('-', ')'), ('*', ')'), ('/', ')'), ('^', ')'), (',', ')'),
   ('+', '+'), ('*', '*'), ('/', '/'), ('^', '^'), (',', ','), ('.', '.'),
   ('+', '*'), ('+', '/'), ('+', '^'), ('+', '!'), ('+', ','),
   ('-', '*'), ('-', '/'), ('-', '^'), ('-', '!'), ('-', ','),
   ('*', '/'), ('*', '^'), ('*', '!'), ('*', ','),
   ('/', '*'), ('/', '^'), ('/', '!'), ('/', ','),
   ('^', '*'), ('^', '/'), ('^', '!'), ('^', ','),
   (',', '*'), (',', '/'), (',', '^'), (',', '!'),
   ('!', '.'), (')', '.')]

def checkPairs (t : Text) : Except ReadError Unit :=
  match forbiddenPairs.find? fun p => hasPair p.1 p.2 t with
  | some p => .error (.pair p.1 p.2)
  | none => .ok ()

def checkCharacters (t : Text) : Except ReadError Unit :=
  match t.find? fun c => !(c.isAlphanum || isSpecial c) with
  | some c => .error (.character c)
  | none => .ok ()

/-- A number has one point; positions are counted from zero. -/
def checkNumbers (position : Nat) (inWord : Bool) (points : Nat) : Text → Except ReadError Unit
  | [] => .ok ()
  | c :: rest =>
    if isNameStart c then checkNumbers (position + 1) true 0 rest
    else if c.isDigit then checkNumbers (position + 1) inWord points rest
    else if c = '.' ∧ inWord = false then
      if points = 0 then checkNumbers (position + 1) inWord 1 rest else .error (.digits position)
    else checkNumbers (position + 1) false 0 rest

/-! Groups, calls and commas: which groups are lists of arguments, and whether these have the right
length. -/

/-- Takes out the first empty pair of parentheses that is not the argument list of a call. -/
def dropEmptyGroup? (v : Vocabulary) (before : Text) : Text → Option Text
  | '(' :: ')' :: rest =>
    if v.isCallable (nameBefore before) then
      (dropEmptyGroup? v (')' :: '(' :: before) rest).map ('(' :: ')' :: ·)
    else some rest
  | c :: rest => (dropEmptyGroup? v (c :: before) rest).map (c :: ·)
  | [] => none

/-- An open group; of an argument list, the name before it, the commas so far and whether it closes
at once. -/
inductive Frame where
  | group
  | call (name : Text) (arity : Arity) (commas : Nat) (isEmpty : Bool)

def Frame.opened (v : Vocabulary) (before rest : Text) : Frame :=
  match v.arity? (nameBefore before) with
  | some arity => .call (nameBefore before) arity 0 (rest.head? == some ')')
  | none => .group

/-- Commas stand directly in argument lists only, and a list has as many arguments as the name
before it takes. -/
def checkArguments (v : Vocabulary) (before : Text) (frames : List Frame) :
    Text → Except ReadError Unit
  | [] => .ok ()
  | c :: rest =>
    if c = '(' then checkArguments v (c :: before) (.opened v before rest :: frames) rest
    else if c = ',' then
      match frames with
      | .call name arity commas isEmpty :: outer =>
        checkArguments v (c :: before) (.call name arity (commas + 1) isEmpty :: outer) rest
      | _ => .error (.comma before.length)
    else if c = ')' then
      match frames with
      | .call name arity commas isEmpty :: outer =>
        let count := if isEmpty then 0 else commas + 1
        if arity.admits count then checkArguments v (c :: before) outer rest
        else .error (.argumentCount name arity count)
      | _ => checkArguments v (c :: before) frames.tail rest
    else checkArguments v (c :: before) frames rest

theorem count_dropEmptyGroup? {v : Vocabulary} {before t u : Text}
    (h : dropEmptyGroup? v before t = some u) : u.count '(' < t.count '(' := by
  fun_induction dropEmptyGroup? v before t generalizing u with
  | case1 before rest hc ih =>
    obtain ⟨w, hw, rfl⟩ := Option.map_eq_some_iff.mp h
    simpa using ih hw
  | case2 before rest hc =>
    obtain rfl : rest = u := by simpa using h
    simp
  | case3 before c rest hc ih =>
    obtain ⟨w, hw, rfl⟩ := Option.map_eq_some_iff.mp h
    simp only [List.count_cons]
    have := ih hw
    omega
  | case4 => simp at h

/-! Signs in a row, points without digits and plus signs without effect. -/

/-- One minus takes a neighbouring plus away, two make a plus, and a plus after a product sign has
no effect. -/
def collapseOnce (t : Text) : Text :=
  replacePair '/' '+' ['/'] <| replacePair '*' '+' ['*'] <| replacePair '-' '-' ['+'] <|
    replacePair '-' '+' ['-'] <| replacePair '+' '-' ['-'] t

/-- Until nothing changes. -/
def collapseSigns (t : Text) : Text :=
  if (collapseOnce t).length < t.length then collapseSigns (collapseOnce t) else t
termination_by t.length

/-- A zero before a point that follows a sign, and no point at the end. -/
def completePoints (t : Text) : Text :=
  let t := replacePair '-' '.' ['-', '0', '.'] <| replacePair '+' '.' ['+', '0', '.'] <|
    replacePair '/' '.' ['/', '0', '.'] <| replacePair '*' '.' ['*', '0', '.'] t
  if t.getLast? = some '.' then t.dropLast else t

/-- A plus at the start of the text, of a group, of an argument or of an exponent. -/
def dropPlus (t : Text) : Text :=
  match replacePair '^' '+' ['^'] <| replacePair ',' '+' [','] <| replacePair '(' '+' ['('] t with
  | '+' :: rest => rest
  | t => t

/-- A point before another sign is no part of a number. -/
def dropPoints : Text → Text
  | a :: b :: rest =>
    if a = '.' ∧ isSpecial b then dropPoints (b :: rest) else a :: dropPoints (b :: rest)
  | t => t

theorem count_collapseOnce (t : Text) : (collapseOnce t).count '(' = t.count '(' := by
  simp only [collapseOnce]
  repeat rw [count_replacePair '(' _ _ _ (by decide)]

theorem count_collapseSigns (t : Text) : (collapseSigns t).count '(' = t.count '(' := by
  fun_induction collapseSigns t with
  | case1 t h ih => rw [ih, count_collapseOnce]
  | case2 t h => rfl

theorem count_completePoints (t : Text) : (completePoints t).count '(' = t.count '(' := by
  have h (u : Text) : (if u.getLast? = some '.' then u.dropLast else u).count '(' =
      u.count '(' := by
    split
    · next hu =>
      obtain ⟨w, rfl⟩ := List.getLast?_eq_some_iff.mp hu
      simp
    · rfl
  simp only [completePoints]
  rw [h]
  repeat rw [count_replacePair '(' _ _ _ (by decide)]

theorem count_dropPlus (t : Text) : (dropPlus t).count '(' = t.count '(' := by
  have h : (replacePair '^' '+' ['^'] <| replacePair ',' '+' [','] <| replacePair '(' '+' ['(']
      t).count '(' = t.count '(' := by
    repeat rw [count_replacePair '(' _ _ _ (by decide)]
  rw [← h, dropPlus]
  split
  · next he => rw [he]; simp
  · rfl

/-! Products that are written without a sign get one. -/

/-- What the last characters belong to. -/
inductive Within where
  | number | word | neither
  deriving DecidableEq

def endsGroup (previous : Option Char) : Bool := previous == some ')' || previous == some '!'

/-- A number after a group or a factorial, a group after a number; and a point that begins a number
gets a zero. -/
def separateNumbers (previous : Option Char) (within : Within) : Text → Text
  | [] => []
  | c :: rest =>
    if c.isDigit then
      if within = .word then c :: separateNumbers (some c) .word rest
      else if within = .neither ∧ endsGroup previous then
        '*' :: c :: separateNumbers (some c) .number rest
      else c :: separateNumbers (some c) .number rest
    else if c = '.' then
      if endsGroup previous then '*' :: '0' :: c :: separateNumbers (some c) .number rest
      else if previous.any Char.isDigit then c :: separateNumbers (some c) .number rest
      else '0' :: c :: separateNumbers (some c) .number rest
    else if c = '(' then
      if within = .number then '*' :: c :: separateNumbers (some c) .neither rest
      else c :: separateNumbers (some c) .neither rest
    else if isNameStart c then c :: separateNumbers (some c) .word rest
    else c :: separateNumbers (some c) .neither rest

/-- A group or a word after a group or a factorial. -/
def separateGroups (previous : Option Char) : Text → Text
  | [] => []
  | c :: rest =>
    if (c = '(' ∨ isNameStart c) ∧ endsGroup previous then '*' :: c :: separateGroups (some c) rest
    else c :: separateGroups (some c) rest

/-- A word after a number, a group after a number, and a group after a word that is not callable; a
callable word has to stand before a group. The word is the one that the text so far ends with, last
character first. -/
def separateWords (v : Vocabulary) (word : Text) (inNumber : Bool) : Text → Except ReadError Text
  | [] => if word ≠ [] ∧ v.isCallable word.reverse then .error (.notCalled word.reverse) else .ok []
  | c :: rest =>
    if c.isDigit ∨ c = '.' then
      if word = [] then (c :: ·) <$> separateWords v [] true rest
      else (c :: ·) <$> separateWords v (c :: word) inNumber rest
    else if isNameStart c then
      if word = [] ∧ inNumber then ('*' :: c :: ·) <$> separateWords v [c] false rest
      else (c :: ·) <$> separateWords v (c :: word) false rest
    else if word = [] then
      if c = '(' ∧ inNumber then ('*' :: c :: ·) <$> separateWords v [] false rest
      else (c :: ·) <$> separateWords v [] false rest
    else if v.isCallable word.reverse then
      if c = '(' then (c :: ·) <$> separateWords v [] false rest
        else .error (.notCalled word.reverse)
    else if c = '(' then ('*' :: c :: ·) <$> separateWords v [] false rest
    else (c :: ·) <$> separateWords v [] false rest

/-! Tidy text: small letters without white space, no signs in a row, every product written out, and
every argument list of the right length. An empty pair of parentheses is taken out and the shorter
text begun again; each time there is one opening parenthesis less. -/

/-- The signs and points of a text in order, after what is wrong with it on its face. -/
def settleSigns (t : Text) : Except ReadError Text := do
  checkNotTrivial t
  checkBalance t
  checkEnds t
  let t := completePoints (collapseSigns t)
  checkNotTrivial t
  checkPairs t
  checkCharacters t
  return dropPlus t

/-- The arguments checked and the products written out. -/
def writeProducts (v : Vocabulary) (t : Text) : Except ReadError Text := do
  let t := dropPoints t
  checkArguments v [] [] t
  let t := separateGroups none (separateNumbers none .neither t)
  checkNumbers 0 false 0 t
  separateWords v [] false t

theorem count_settleSigns {t u : Text} (h : settleSigns t = .ok u) : u.count '(' = t.count '(' := by
  simp only [settleSigns, bind, Except.bind, pure, Except.pure] at h
  repeat (split at h; · cases h)
  cases h
  rw [count_dropPlus, count_completePoints, count_collapseSigns]

def tidyFrom (v : Vocabulary) (t : Text) : Except ReadError Text :=
  match _settled : settleSigns t with
  | .error e => .error e
  | .ok u =>
    match _shorter : dropEmptyGroup? v [] u with
    | some w => tidyFrom v w
    | none => writeProducts v u
termination_by t.count '('
decreasing_by
  have := count_dropEmptyGroup? _shorter
  have := count_settleSigns _settled
  omega

def tidy (v : Vocabulary) (t : Text) : Except ReadError Text :=
  tidyFrom v (lowercase (withoutBlanks t))

end Abacus
