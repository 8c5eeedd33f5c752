import Mathlib.Data.List.Infix
import VectorVrl.Nesting

namespace VectorVrl.Nesting

inductive Bracket where
  | round
  | curly
  | square
deriving DecidableEq, Repr

def Bracket.opener : Bracket → Char
  | .round => '('
  | .curly => '{'
  | .square => '['

def Bracket.closer : Bracket → Char
  | .round => ')'
  | .curly => '}'
  | .square => ']'

/-- One step through the body of a literal that `close` ends. -/
inductive Piece (close : Char) where
  | plain (c : Char) (ordinary : c ≠ close ∧ c ≠ '\\')
  | escape (c : Char)

def Piece.text {close : Char} : Piece close → List Char
  | .plain c _ => [c]
  | .escape c => ['\\', c]

abbrev Body (close : Char) := List (Piece close)

def bodyText {close : Char} (body : Body close) : List Char := body.flatMap Piece.text

inductive LiteralPrefix where
  | r
  | s
  | t
deriving DecidableEq, Repr

def LiteralPrefix.letter : LiteralPrefix → Char
  | .r => 'r'
  | .s => 's'
  | .t => 't'

/-- A literal's body as text: its closing quote stands only where a backslash
escapes it, and no backslash is left without the character it escapes. -/
def isBody (close : Char) : List Char → Bool
  | [] => true
  | c :: cs =>
    if c = '\\' then
      match cs with
      | [] => false
      | _ :: rest => isBody close rest
    else c ≠ close && isBody close cs

/-- The forms of text whose content carries no structure. -/
inductive SkippedForm where
  | string
  | literal (kind : LiteralPrefix)
  | comment
deriving DecidableEq, Repr

def SkippedForm.admits : SkippedForm → List Char → Bool
  | .string, body => isBody '"' body
  | .literal _, body => isBody '\'' body
  | .comment, body => '\n' ∉ body

def SkippedForm.wrap (form : SkippedForm) (body : List Char) : String :=
  match form with
  | .string => String.ofList ('"' :: (body ++ ['"']))
  | .literal kind => String.ofList (kind.letter :: '\'' :: (body ++ ['\'']))
  | .comment => String.ofList ('#' :: (body ++ ['\n']))

/-- A character that is a token by itself. -/
def isOther (c : Char) : Bool :=
  !isOpener c && !isCloser c && c ≠ '"' && c ≠ '#' && !isIdentContinue c

/-- The items that hold no other item. -/
inductive Leaf where
  | string (body : Body '"')
  | literal (kind : LiteralPrefix) (body : Body '\'')
  | comment (text : {cs : List Char // '\n' ∉ cs})
  | word (run : {cs : List Char // cs ≠ [] ∧ ∀ c ∈ cs, isIdentContinue c = true})
  | other (c : {c : Char // isOther c = true})

def Leaf.text : Leaf → List Char
  | .string body => '"' :: (bodyText body ++ ['"'])
  | .literal kind body => kind.letter :: '\'' :: (bodyText body ++ ['\''])
  | .comment text => '#' :: (text.val ++ ['\n'])
  | .word run => run.val
  | .other c => [c.val]

inductive Item where
  | leaf (l : Leaf)
  | group (kind : Bracket) (items : List Item)

/-- The printed pieces that a cut may fall between. -/
inductive Token where
  | opening (kind : Bracket)
  | closing (kind : Bracket)
  | leaf (l : Leaf)

def Token.text : Token → List Char
  | .opening kind => [kind.opener]
  | .closing kind => [kind.closer]
  | .leaf l => l.text

mutual

def Item.tokens : Item → List Token
  | .leaf l => [.leaf l]
  | .group kind items => .opening kind :: (itemTokens items ++ [.closing kind])

def itemTokens : List Item → List Token
  | [] => []
  | item :: items => item.tokens ++ itemTokens items

end

/-- Whether `b` may directly follow `a`. A word runs as far as it can, and a
word that is exactly a prefix letter takes a single quote for its literal. -/
def mayFollow : Token → Token → Bool
  | .leaf (.word _), .leaf (.word _) => false
  | .leaf (.word _), .leaf (.literal _ _) => false
  | .leaf (.word run), .leaf (.other c) =>
    !(c.val = '\'' && (run.val = ['r'] || run.val = ['s'] || run.val = ['t']))
  | _, _ => true

/-- A VRL token tree: its items, with no two words running together. -/
structure TokenTree where
  items : List Item
  separated : (itemTokens items).IsChain (fun a b => mayFollow a b = true)

def TokenTree.tokens (t : TokenTree) : List Token := itemTokens t.items

def printTokens (ts : List Token) : String := String.ofList (ts.flatMap Token.text)

def Token.isOpening : Token → Bool
  | .opening _ => true
  | _ => false

def Token.isClosing : Token → Bool
  | .closing _ => true
  | _ => false

/-- The number of groups open after `ts`. -/
def openAfter (ts : List Token) : Nat := ts.countP Token.isOpening - ts.countP Token.isClosing

/-- The greatest number of groups that are open at the same time in `ts`. -/
def mostOpen (ts : List Token) : Nat := (ts.inits.map openAfter).foldr max 0

mutual

/-- How deep the groups of an item are nested. -/
def Item.depth : Item → Nat
  | .leaf _ => 0
  | .group _ items => itemDepth items + 1

def itemDepth : List Item → Nat
  | [] => 0
  | item :: items => max item.depth (itemDepth items)

end

end VectorVrl.Nesting
