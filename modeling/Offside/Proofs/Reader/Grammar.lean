import Offside.Proofs.Layout
import Offside.Reader.Statement

/-!
# The grammar of programs

Which tokens spell a tree, said without the reader.  Expressions follow a grammar in tiers: a tier joins
operands of the next tighter tier to the left.  Statements are spelled as lines, each with the blocks that
are open around it; indentation is no part of the spelling but follows from the open blocks.

* `Grammar.Spells`, `Grammar.Operand`, `Grammar.Listed` — expressions, by precedence;
* `Grammar.Statement` and its companions — statements as lines.

All relations take the number of parameters and arguments that are allowed.
-/

set_option autoImplicit false

namespace Offside

namespace Grammar

open Reading

/-! ## Expressions -/

mutual

/-- The tokens spell the expression with the operators of the given tiers, none of which need occur. -/
inductive Spells (limit : Nat) : List Tier → Expr Unit → List Token → Prop
  | tighter {tier : Tier} {more : List Tier} {e : Expr Unit} {ts : List Token} :
      Spells limit more e ts → Spells limit (tier :: more) e ts
  /-- The left operand may be of the same tier, the right one is tighter. -/
  | join {tier : Tier} {more : List Tier} {left right : Expr Unit} {operator : Token}
      {as bs : List Token} :
      Spells limit (tier :: more) left as → tier.isOperator operator.kind = true →
      Spells limit more right bs →
      Spells limit (tier :: more) (tier.join left operator right) (as ++ operator :: bs)
  | sign {e : Expr Unit} {operator : Token} {ts : List Token} :
      isSign operator.kind = true → Spells limit [] e ts →
      Spells limit [] (.unary operator e) (operator :: ts)
  | operand {e : Expr Unit} {ts : List Token} : Operand limit e ts → Spells limit [] e ts

/-- The tokens spell an operand: a smallest expression with its calls and fields. -/
inductive Operand (limit : Nat) : Expr Unit → List Token → Prop
  | literal {t : Token} {value : Literal} :
      literalOf? t = some value → Operand limit (.literal value) [t]
  | name {t : Token} : t.kind = .identifier → Operand limit (.name t ()) [t]
  | thisRef {t : Token} : t.kind = .thisWord → Operand limit (.thisRef t ()) [t]
  | superRef {t dot method : Token} : t.kind = .superWord → dot.kind = .dot →
      method.kind = .identifier → Operand limit (.superRef t method ()) [t, dot, method]
  | group {e : Expr Unit} {ts : List Token} {opening closing : Token} :
      opening.kind = .leftParen → Spells limit tiers e ts → closing.kind = .rightParen →
      Operand limit (.group e) (opening :: (ts ++ [closing]))
  | getField {object : Expr Unit} {ts : List Token} {dot field : Token} :
      Operand limit object ts → dot.kind = .dot → field.kind = .identifier →
      Operand limit (.getField object field) (ts ++ [dot, field])
  | call {callee : Expr Unit} {arguments : List (Expr Unit)} {as bs : List Token}
      {opening closing : Token} :
      Operand limit callee as → opening.kind = .leftParen → Listed limit arguments bs →
      arguments.length ≤ limit → closing.kind = .rightParen →
      Operand limit (.call callee closing arguments) (as ++ opening :: (bs ++ [closing]))

/-- The tokens spell expressions with commas between them. -/
inductive Listed (limit : Nat) : List (Expr Unit) → List Token → Prop
  | none : Listed limit [] []
  | one {e : Expr Unit} {ts : List Token} : Spells limit tiers e ts → Listed limit [e] ts
  | more {e : Expr Unit} {es : List (Expr Unit)} {as bs : List Token} {comma : Token} :
      Spells limit tiers e as → comma.kind = .comma → Listed limit es bs → es ≠ [] →
      Listed limit (e :: es) (as ++ comma :: bs)

end

/-! ## Parts of statements -/

/-- The tokens spell an expression or an assignment to a variable or a field. -/
inductive Simple (limit : Nat) : Stmt Unit → List Token → Prop
  | evaluate {e : Expr Unit} {ts : List Token} :
      Spells limit tiers e ts → Simple limit (.evaluate e) ts
  | assign {value : Expr Unit} {ts : List Token} {name mark : Token} :
      name.kind = .identifier → mark.kind = .toWord → Spells limit tiers value ts →
      Simple limit (.assign name (some value) ()) (name :: mark :: ts)
  | setField {object value : Expr Unit} {as bs : List Token} {dot field mark : Token} :
      Operand limit object as → dot.kind = .dot → field.kind = .identifier → mark.kind = .toWord →
      Spells limit tiers value bs →
      Simple limit (.evaluate (.setField object field value)) (as ++ dot :: field :: mark :: bs)

/-- The tokens behind the keyword `word` spell what is given back; a value starts on the line of the
keyword. -/
inductive GivenBack (limit : Nat) (word : Token) : Stmt Unit → List Token → Prop
  | nothing : GivenBack limit word (.giveBack word none) []
  | value {e : Expr Unit} {ts : List Token} :
      Spells limit tiers e ts → (∀ t ∈ ts.head?, t.line = word.line) →
      GivenBack limit word (.giveBack word (some e)) ts


/-- The tokens spell parameter names with commas between them. -/
inductive Params : List Token → List Token → Prop
  | none : Params [] []
  | one {name : Token} : name.kind = .identifier → Params [name] [name]
  | more {name comma : Token} {names ts : List Token} :
      name.kind = .identifier → comma.kind = .comma → Params names ts → names ≠ [] →
      Params (name :: names) (name :: comma :: ts)

/-- The tokens spell a return type, or are none. -/
inductive ReturnType : Option Token → List Token → Prop
  | none : ReturnType none []
  | some {colons type : Token} : colons.kind = .doubleColon →
      type.kind = .identifier ∨ type.kind = .nullWord → ReturnType (some type) [colons, type]

/-- The tokens spell a superclass, or are none. -/
inductive Superclass : Option (Token × Unit) → List Token → Prop
  | none : Superclass none []
  | some {colons name : Token} : colons.kind = .doubleColon → name.kind = .identifier →
      Superclass (some (name, ())) [colons, name]

/-- The word that may stand in front of an assignment or an expression. -/
inductive SetWord : List Token → Prop
  | absent : SetWord []
  | present {word : Token} : word.kind = .setWord → SetWord [word]

/-! ## Statements -/

/-- A line: the blocks that are open around it, and its tokens without indentation. -/
structure Line where
  layout : Layout
  tokens : List Token

mutual

/-- The lines spell the statement, the first of them in the given layout. -/
inductive Statement (limit : Nat) : Layout → Stmt Unit → List Line → Prop
  | simple {l : Layout} {s : Stmt Unit} {set ts : List Token} :
      SetWord set → Simple limit s ts → Statement limit l s [⟨l, set ++ ts⟩]
  | print {l : Layout} {e : Expr Unit} {ts : List Token} {word : Token} :
      word.kind = .printWord → Spells limit tiers e ts →
      Statement limit l (.print e) [⟨l, word :: ts⟩]
  | giveBack {l : Layout} {s : Stmt Unit} {ts : List Token} {word : Token} :
      word.kind = .returnWord → GivenBack limit word s ts → Statement limit l s [⟨l, word :: ts⟩]
  | block {l : Layout} {body : List (Stmt Unit)} {colon : Token} {inner : List Line} :
      colon.kind = .colon → Block limit l body inner →
      Statement limit l (.block body) (⟨l, [colon]⟩ :: inner)
  | loop {l : Layout} {condition : Expr Unit} {body : List (Stmt Unit)} {ts : List Token}
      {word colon : Token} {inner : List Line} :
      word.kind = .whileWord → Spells limit tiers condition ts → colon.kind = .colon →
      Block limit l body inner →
      Statement limit l (.loop condition (.block body)) (⟨l, word :: (ts ++ [colon])⟩ :: inner)
  | branch {l : Layout} {s : Stmt Unit} {ts : List Token} {word : Token} {inner : List Line} :
      word.kind = .ifWord → Branch limit l s ts inner →
      Statement limit l s (⟨l, word :: ts⟩ :: inner)
  | define {l : Layout} {r : Routine Unit} {ts : List Token} {word : Token} {inner : List Line} :
      word.kind = .functionWord → Function limit l r ts inner →
      Statement limit l (.define r) (⟨l, word :: ts⟩ :: inner)
  | classDef {l : Layout} {name : Token} {parent : Option (Token × Unit)}
      {methods : List (Routine Unit)} {ts : List Token} {word colon : Token} {inner : List Line}
      {deeper : Layout} :
      word.kind = .classWord → name.kind = .identifier → Superclass parent ts →
      colon.kind = .colon → l.Opens deeper → Methods limit deeper methods inner → methods ≠ [] →
      Statement limit l (.classDef name parent methods)
        (⟨l, word :: name :: (ts ++ [colon])⟩ :: inner)

/-- The tokens behind `if` on its line and the lines behind it spell the branch. -/
inductive Branch (limit : Nat) : Layout → Stmt Unit → List Token → List Line → Prop
  | intro {l : Layout} {condition : Expr Unit} {body : List (Stmt Unit)} {other : Option (Stmt Unit)}
      {ts : List Token} {colon : Token} {inner rest : List Line} :
      Spells limit tiers condition ts → colon.kind = .colon → Block limit l body inner →
      Otherwise limit l other rest →
      Branch limit l (.branch condition (.block body) other) (ts ++ [colon]) (inner ++ rest)

/-- The lines spell what is done otherwise, if anything is. -/
inductive Otherwise (limit : Nat) : Layout → Option (Stmt Unit) → List Line → Prop
  | nothing {l : Layout} : Otherwise limit l none []
  | block {l : Layout} {body : List (Stmt Unit)} {word colon : Token} {inner : List Line} :
      word.kind = .elseWord → colon.kind = .colon → Block limit l body inner →
      Otherwise limit l (some (.block body)) (⟨l, [word, colon]⟩ :: inner)
  | branch {l : Layout} {next : Stmt Unit} {ts : List Token} {word word' : Token} {inner : List Line} :
      word.kind = .elseWord → word'.kind = .ifWord → Branch limit l next ts inner →
      Otherwise limit l (some next) (⟨l, word :: word' :: ts⟩ :: inner)

/-- The tokens behind the keyword on its line and the lines behind it spell the function. -/
inductive Function (limit : Nat) : Layout → Routine Unit → List Token → List Line → Prop
  | intro {l : Layout} {name opening closing colon : Token} {params as bs : List Token}
      {type : Option Token} {body : List (Stmt Unit)} {inner : List Line} :
      name.kind = .identifier → opening.kind = .leftParen → Params params as →
      params.length ≤ limit → closing.kind = .rightParen → ReturnType type bs →
      colon.kind = .colon → Block limit l body inner →
      Function limit l (.mk name params body type)
        (name :: opening :: (as ++ closing :: (bs ++ [colon]))) inner

/-- The lines spell the statements of a block inside the given layout; there is at least one. -/
inductive Block (limit : Nat) : Layout → List (Stmt Unit) → List Line → Prop
  | intro {l deeper : Layout} {body : List (Stmt Unit)} {inner : List Line} :
      l.Opens deeper → Statements limit deeper body inner → body ≠ [] → Block limit l body inner

/-- The lines spell the statements one after the other. -/
inductive Statements (limit : Nat) : Layout → List (Stmt Unit) → List Line → Prop
  | nil {l : Layout} : Statements limit l [] []
  | cons {l : Layout} {s : Stmt Unit} {ss : List (Stmt Unit)} {first rest : List Line} :
      Statement limit l s first → Statements limit l ss rest →
      Statements limit l (s :: ss) (first ++ rest)

/-- The lines spell the methods one after the other. -/
inductive Methods (limit : Nat) : Layout → List (Routine Unit) → List Line → Prop
  | nil {l : Layout} : Methods limit l [] []
  | cons {l : Layout} {r : Routine Unit} {rs : List (Routine Unit)} {ts : List Token} {word : Token}
      {inner rest : List Line} :
      word.kind = .functionWord → Function limit l r ts inner → Methods limit l rs rest →
      Methods limit l (r :: rs) (⟨l, word :: ts⟩ :: (inner ++ rest))

end

end Grammar
end Offside
