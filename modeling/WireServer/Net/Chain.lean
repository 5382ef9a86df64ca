import WireServer.Bytes

/-! Output chains: byte ranges that wait to be sent, the first of them perhaps in part. -/

namespace WireServer.Net

/-- A range of output: how much of it is sent, and what is left. -/
structure Bucket where
  sent : Nat := 0
  rest : Bytes
  deriving DecidableEq, Inhabited, Repr

namespace Bucket

def length (b : Bucket) : Nat := b.sent + b.rest.length

/-- One or more bytes less than the rest were sent. -/
def advance (b : Bucket) (n : Nat) : Bucket := ⟨b.sent + n, b.rest.drop n⟩

end Bucket

/-- Ranges in the order in which they are sent. -/
structure Chain where
  buckets : List Bucket := []
  deriving DecidableEq, Inhabited, Repr

namespace Chain

def empty : Chain := {}

def ofList (pieces : List Bytes) : Chain := ⟨pieces.map fun bs => { rest := bs }⟩

def push (c : Chain) (bs : Bytes) : Chain := ⟨c.buckets ++ [{ rest := bs }]⟩

def pushFront (c : Chain) (bs : Bytes) : Chain := ⟨{ rest := bs } :: c.buckets⟩

/-- The ranges of the one and then of the other. -/
def append (c d : Chain) : Chain := ⟨c.buckets ++ d.buckets⟩

/-- The bytes still to send. -/
def toBytes (c : Chain) : Bytes := (c.buckets.map Bucket.rest).flatten

/-- How many bytes are still to send. -/
def total (c : Chain) : Nat := c.toBytes.length

/-- What is left of the first ranges, at most `max` of those with anything left. -/
def slices (c : Chain) (max : Nat) : List Bytes :=
  ((c.buckets.map Bucket.rest).filter fun bs => !bs.isEmpty).take max

/-- Takes bytes off the front of the ranges, and gives the count that found none. -/
def consumeBuckets : List Bucket → Nat → List Bucket × Nat
  | [], n => ([], n)
  | b :: bs, n =>
    if n < b.rest.length then (b.advance n :: bs, 0)
    else consumeBuckets bs (n - b.rest.length)

/-- `n` bytes were sent: ranges sent in full are dropped. -/
def consume (c : Chain) (n : Nat) : Chain × Nat :=
  let (bs, left) := consumeBuckets c.buckets n
  (⟨bs⟩, left)

@[simp] theorem toBytes_push (c : Chain) (bs : Bytes) : (c.push bs).toBytes = c.toBytes ++ bs := by
  simp [push, toBytes]

@[simp] theorem toBytes_append (c d : Chain) : (c.append d).toBytes = c.toBytes ++ d.toBytes := by
  simp [append, toBytes]

end Chain

end WireServer.Net
