import LineGrep.Pattern.Parse

/-!
The passes over a half-parsed pattern, place by place. A round looks for the first place where its
pass applies, takes trees out of the buffer and puts a joined one in, so that the places behind move
up. What could go wrong is a result of its own: a place that the buffer does not have, or a round
that leaves the buffer as long as it was. Main definition: a buffer is resolved by groups, then
stars, then neighbours, then bars, and the content of a group in the same way.
-/

namespace LineGrep.Pattern

/-- Work on a buffer ends with a result or with an error. Or it does not end: a place is addressed
that the buffer does not have, or there is no progress. -/
abbrev Working := ExceptT ParseError Option

namespace Working

variable {α β : Type}

/-- Work that ends. -/
def ended (made : Except ParseError α) : Working α :=
  ExceptT.mk (some made)

/-- Work that does not end. -/
def stuck : Working α :=
  ExceptT.mk none

end Working

def Item.isTree : Item → Bool
  | .tree _ => true
  | .mark _ => false

namespace Buffer

/-- Takes out the tree at a place. A buffer without a tree there stays as it is. -/
def takeTree (buffer : Buffer) (place : Nat) : Option Regex × Buffer :=
  match buffer[place]? with
  | some (.tree t) => (some t, buffer.eraseIdx place)
  | _ => (none, buffer)

/-- Puts an item in the place of another. -/
def put? (buffer : Buffer) (place : Nat) (item : Item) : Option Buffer :=
  if place < buffer.length then some (buffer.set place item) else none

/-- Puts an item before the one at a place, or at the end. -/
def insert? (buffer : Buffer) (place : Nat) (item : Item) : Option Buffer :=
  if place ≤ buffer.length then some (buffer.insertIdx place item) else none

def remove? (buffer : Buffer) (place : Nat) : Option Buffer :=
  if place < buffer.length then some (buffer.eraseIdx place) else none

/-- Takes out what stands from one place on and before another, with what is left. -/
def drain? (buffer : Buffer) (start stop : Nat) : Option (Buffer × Buffer) :=
  if start ≤ stop ∧ stop ≤ buffer.length then
    some ((buffer.take stop).drop start, buffer.take start ++ buffer.drop stop)
  else none

/-- Puts a tree in the place of two items. -/
def merge? (buffer : Buffer) (place : Nat) (t : Regex) : Option Buffer := do
  let rest ← buffer.remove? place
  rest.put? place (.tree t)

/-- The last place of a mark. -/
def lastMark? (buffer : Buffer) (m : Mark) : Option Nat :=
  (buffer.reverse.findIdx? (·.isMark m)).map (buffer.length - 1 - ·)

/-- The place of the first two trees that stand side by side. -/
def neighbours? (buffer : Buffer) : Option Nat :=
  (buffer.zip buffer.tail).findIdx? fun pair => pair.1.isTree && pair.2.isTree

end Buffer

/-- A loop over a buffer: the place of the next round, if there is one, and the round. -/
structure Pass where
  place? : Buffer → Option Nat
  round : Buffer → (place : Nat) → Working Buffer

namespace Pass

/-- Rounds until there is no place for another. A round that does not shorten the buffer is no
progress. -/
def run (pass : Pass) (buffer : Buffer) : Working Buffer :=
  match pass.place? buffer with
  | none => pure buffer
  | some place => do
    let next ← pass.round buffer place
    if _shorter : next.length < buffer.length then pass.run next else .stuck
termination_by buffer.length

/-- Repeats the tree before the first star. -/
def stars : Pass where
  place? buffer := buffer.findIdx? (·.isMark .star)
  round
    | _, 0 => throw .starWithoutOperand
    | buffer, before + 1 =>
      match buffer.takeTree before with
      | (none, _) => throw .starWithoutOperand
      | (some operand, rest) => liftM (rest.put? before (.tree (.star operand)))

/-- Joins the first two neighbours. If only one of them could be taken, the other would be lost. -/
def neighbours : Pass where
  place? := Buffer.neighbours?
  round buffer place :=
    let (right?, rest) := buffer.takeTree (place + 1)
    let (left?, rest) := rest.takeTree place
    match right?, left? with
    | some right, some left => liftM (rest.insert? place (.tree (.cat left right)))
    | _, _ => pure rest

/-- Joins the trees on both sides of the first bar. -/
def bars : Pass where
  place? buffer := buffer.findIdx? (·.isMark .bar)
  round
    | _, 0 => throw .missingLeftOperand
    | buffer, before + 1 => do
      let item ← (buffer[before]? : Option Item)
      if item.isTree then
        match buffer.takeTree (before + 2) with
        | (none, _) => throw .missingRightOperand
        | (some right, rest) =>
          match rest.takeTree before with
          | (none, _) => throw .missingLeftOperand
          | (some left, rest) => liftM (rest.put? before (.tree (.alt left right)))
      else throw .missingLeftOperand

/-- Replaces the group that is closed first by its tree, which is found by resolving its content. A
round is due as long as there is a parenthesis. -/
def groups (resolve : Buffer → Working Regex) : Pass where
  place? buffer := buffer.findIdx? fun item => item.isMark .opening || item.isMark .closing
  round buffer _ :=
    match buffer.findIdx? (·.isMark .closing) with
    | none => throw .missingRightParen
    | some closing =>
      match Buffer.lastMark? (buffer.take closing) .opening with
      | none => throw .missingLeftParen
      | some opening => do
        let (inner, rest) ← buffer.drain? (opening + 1) closing
        if inner.isEmpty then throw .malformedGroup
        else
          let t ← resolve inner
          liftM (rest.merge? opening t)

end Pass

namespace Buffer

/-- The tree of a buffer without groups. -/
def resolveRow? (buffer : Buffer) : Working Regex := do
  let starred ← Pass.stars.run buffer
  let joined ← Pass.neighbours.run starred
  let split ← Pass.bars.run joined
  .ended (root split)

/-- The tree of a buffer. To resolve a group that is not shorter than the buffer is no progress. -/
def resolve? (buffer : Buffer) : Working Regex := do
  let inner := fun group : Buffer =>
    if _shorter : group.length < buffer.length then resolve? group else .stuck
  let flat ← (Pass.groups inner).run buffer
  flat.resolveRow?
termination_by buffer.length

end Buffer

end LineGrep.Pattern
