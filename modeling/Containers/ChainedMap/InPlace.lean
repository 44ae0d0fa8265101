import Containers.ChainedMap.Basic
import Containers.InPlace

/-!
# Storing in place

A payload is stored in a map step by step. Its chain is searched first. If the key is not there, the
memory of the new entry is asked for; only then the chain is taken out of its bucket, the bucket
gets the entry with that chain behind it, and the entry is counted. If the key is there, the payload
takes the place of the old one.
-/

namespace Containers.InPlace

variable {κ V : Type}

/-- Take the chain out of the bucket of these bytes. -/
def takeChain (bytes : ByteString) : Procedure (ChainedMap κ V) (Chain V) :=
  modifyGet fun m =>
    (m.directory[m.bucketOfBytes bytes], m.withChain (m.bucketOfBytes bytes) [] m.len)

/-- Put a chain into the bucket of these bytes. -/
def putChain (bytes : ByteString) (chain : Chain V) : Procedure (ChainedMap κ V) Unit :=
  modify fun m => m.withChain (m.bucketOfBytes bytes) chain m.len

/-- Count one more entry. -/
def countUp : Procedure (ChainedMap κ V) Unit :=
  modify fun m => { m with len := m.len + 1 }

/-- Put an entry at the head of the chain of its key. -/
def link (entry : Entry V) : Procedure (ChainedMap κ V) Unit := do
  let rest ← takeChain entry.key
  putChain entry.key (entry :: rest)
  countUp

/-- Store a payload under a key. The answer is the payload that was there before. -/
def store [Allocator] [Layout V] [MapKey κ] (key : κ) (payload : V) :
    Procedure (ChainedMap κ V) (Option V) := do
  let bytes := MapKey.encode key
  let m ← get
  match Chain.exchange? bytes payload m.directory[m.bucketOf key] with
  | none =>
    let entry ← Entry.make bytes payload
    link entry
    return none
  | some (old, chain) =>
    putChain bytes chain
    return some old

end Containers.InPlace
