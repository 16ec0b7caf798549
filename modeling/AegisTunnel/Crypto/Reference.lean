import AegisTunnel.Crypto.Aegis

/-! # AEGIS-128 as specified

The cipher that the source files name, after its specification (CAESAR v1.1) and not after the code. Only
the AES round is taken from there. A text is cut into blocks, the last one padded with zeros. -/

namespace AegisTunnel.Reference
open Octets

/-- The Fibonacci sequence mod 256. -/
def fibonacci : Octets := (List.range 32).map fun i => UInt8.ofNat (Nat.fib i)

def const0 : Block := load 16 fibonacci

def const1 : Block := load 16 (fibonacci.drop 16)

def update (S : AegisState) (m : Block) : AegisState where
  s0 := (S.s0.xor (aesRound S.s4)).xor m
  s1 := S.s1.xor (aesRound S.s0)
  s2 := S.s2.xor (aesRound S.s1)
  s3 := S.s3.xor (aesRound S.s2)
  s4 := S.s4.xor (aesRound S.s3)

def absorb (S : AegisState) (ms : List Block) : AegisState := ms.foldl update S

def blocks (l : Octets) : List Block := (List.range ((l.length + 15) / 16)).map fun i => load 16 (l.drop (16 * i))

def initialise (key nonce : Block) : AegisState :=
  absorb ⟨key.xor nonce, const1, const0, key.xor const0, key.xor const1⟩
    (List.replicate 5 [key, key.xor nonce]).flatten

def keyStream (S : AegisState) : Block := (S.s1.xor S.s4).xor (S.s2.and S.s3)

/-- The ciphertext blocks, and the state after all plaintext blocks. -/
def crypt : AegisState → List Block → List Block × AegisState
  | S, [] => ([], S)
  | S, p :: ps => (p.xor (keyStream S) :: (crypt (update S p) ps).1, (crypt (update S p) ps).2)

def le64 (n : Nat) : Octets := (List.range 8).map fun i => UInt8.ofNat (n / 256 ^ i)

def finalise (S : AegisState) (adLen msgLen : Nat) : Block :=
  let S := absorb S (List.replicate 7 (S.s3.xor (load 16 (le64 (8 * adLen) ++ le64 (8 * msgLen)))))
  (((S.s0.xor S.s1).xor S.s2).xor S.s3).xor S.s4

/-- The ciphertext, as long as the message, and the tag. -/
def encrypt (m ad : Octets) (nonce key : Block) : Octets × Block :=
  let r := crypt (absorb (initialise key nonce) (blocks ad)) (blocks m)
  ((r.1.flatMap (·.toList)).take m.length, finalise r.2 ad.length m.length)

/-- An answer that the specification gives for its cipher. -/
structure Answer where
  key : Block
  nonce : Block
  ad : Octets
  text : Octets
  ciphertext : Octets
  tag : Block
  agrees : encrypt text ad nonce key = (ciphertext, tag)

def firstAnswer : Answer where
  key := Word.zero 16
  nonce := Word.zero 16
  ad := []
  text := List.replicate 16 0
  ciphertext := [0x95, 0x1b, 0x05, 0x0f, 0xa7, 0x2b, 0x1a, 0x2f, 0xc1, 0x6d, 0x2e, 0x1f, 0x01, 0xb0, 0x7d, 0x7e]
  tag := ⟨[0xa7, 0xd2, 0xa9, 0x97, 0x73, 0x24, 0x95, 0x42, 0xf4, 0x22, 0x21, 0x7e, 0xe8, 0x88, 0xd5, 0xf1], rfl⟩
  agrees := by decide +kernel

end AegisTunnel.Reference
