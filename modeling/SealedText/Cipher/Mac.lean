import SealedText.Cipher.Engine

/-!
# Message authentication by chaining

A tag is the first half of the last block of a chain with an all-zero start: each block of the message
is added to the state and the state is encrypted. The last block is filled up with zeros, and an empty
message counts as one block of zeros.

`Mac` takes the message in pieces. A full buffer is absorbed only once another byte comes, so `finish`
always has a block left to absorb.
-/

namespace SealedText

/-- The length of a tag in bytes. -/
def tagSize : Nat := 8

structure Mac where
  engine : Engine
  state : Bytes
  buffer : Bytes

namespace Mac

/-- Start with a fresh engine, which is keyed here. -/
def start (fresh : Engine) (key : Bytes) : Except CipherError Mac := do
  let engine ← fresh.keyedWith .encrypting key
  return { engine, state := List.replicate engine.blockSize 0, buffer := [] }

/-- Add the full buffer to the state. -/
def absorbBuffer (m : Mac) : Except CipherError Mac := do
  let state ← m.engine.process (m.state.xor m.buffer)
  return { m with state, buffer := [] }

/-- Empty a full buffer. -/
def makeRoom (m : Mac) : Except CipherError Mac :=
  if m.buffer.length = m.state.length then m.absorbBuffer else return m

/-- Take the next piece of the message, each time as much of it as the buffer has room for. -/
def extend (m : Mac) : Bytes → Except CipherError Mac
  | [] => return m
  | b :: rest => do
    let m ← m.makeRoom
    let more := m.state.length - m.buffer.length - 1
    extend { m with buffer := m.buffer ++ b :: rest.take more } (rest.drop more)
termination_by piece => piece.length
decreasing_by simp only [List.length_drop, List.length_cons]; omega

def finish (m : Mac) : Except CipherError Bytes := do
  let filled := m.buffer ++ List.replicate (m.state.length - m.buffer.length) 0
  let m ← { m with buffer := filled }.absorbBuffer
  return m.state.take tagSize

end Mac

/-- The tag of a whole message. -/
def macOf (fresh : Engine) (key message : Bytes) : Except CipherError Bytes := do
  let m ← Mac.start fresh key
  let m ← m.extend message
  m.finish

/-- Whether two tags are equal; tags of different lengths never are. -/
def tagsEqual (expected actual : Bytes) : Bool := expected == actual

end SealedText
