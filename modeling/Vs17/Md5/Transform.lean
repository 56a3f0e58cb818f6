import Vs17.Library.Words

/-! # The block transform of MD5

The four rounds of `MD5::transform`. Each step computes a new value of one register; the
registers change places from step to step.
-/

namespace Vs17.Md5

open Words

/-- The chaining state, and the registers `a`, `b`, `c`, `d`. -/
structure Chain where
  a : UInt32
  b : UInt32
  c : UInt32
  d : UInt32
  deriving DecidableEq, Repr

/-- The initialization constants. -/
def Chain.magic : Chain := ⟨0x67452301, 0xefcdab89, 0x98badcfe, 0x10325476⟩

def basicF (x y z : UInt32) : UInt32 := (x &&& y) ||| (~~~x &&& z)

def basicG (x y z : UInt32) : UInt32 := (x &&& z) ||| (y &&& ~~~z)

def basicH (x y z : UInt32) : UInt32 := x ^^^ y ^^^ z

def basicI (x y z : UInt32) : UInt32 := y ^^^ (x ||| ~~~z)

def rotateLeft (x n : UInt32) : UInt32 := (x <<< n) ||| (x >>> (32 - n))

/-- `FF`, `GG`, `HH` and `II`, by their basic function; the registers are handed on in the
order in which the next step names them. -/
def step (basic : UInt32 → UInt32 → UInt32 → UInt32) (r : Chain) (x s ac : UInt32) : Chain :=
  ⟨r.d, rotateLeft (r.a + basic r.b r.c r.d + x + ac) s + r.b, r.b, r.c⟩

/-- A round of sixteen steps: which word each takes, and its constant. The four shifts come
round in turn. -/
def round (basic : UInt32 → UInt32 → UInt32 → UInt32) (shifts : List UInt32)
    (steps : List (ℕ × UInt32)) (x : List UInt32) (r : Chain) : Chain :=
  (steps.zip (shifts ++ shifts ++ shifts ++ shifts)).foldl
    (fun r e => step basic r (x.getD e.1.1 0) e.2 e.1.2) r

def round1 : List (ℕ × UInt32) :=
  [(0, 0xd76aa478), (1, 0xe8c7b756), (2, 0x242070db), (3, 0xc1bdceee),
    (4, 0xf57c0faf), (5, 0x4787c62a), (6, 0xa8304613), (7, 0xfd469501),
    (8, 0x698098d8), (9, 0x8b44f7af), (10, 0xffff5bb1), (11, 0x895cd7be),
    (12, 0x6b901122), (13, 0xfd987193), (14, 0xa679438e), (15, 0x49b40821)]

def round2 : List (ℕ × UInt32) :=
  [(1, 0xf61e2562), (6, 0xc040b340), (11, 0x265e5a51), (0, 0xe9b6c7aa),
    (5, 0xd62f105d), (10, 0x2441453), (15, 0xd8a1e681), (4, 0xe7d3fbc8),
    (9, 0x21e1cde6), (14, 0xc33707d6), (3, 0xf4d50d87), (8, 0x455a14ed),
    (13, 0xa9e3e905), (2, 0xfcefa3f8), (7, 0x676f02d9), (12, 0x8d2a4c8a)]

def round3 : List (ℕ × UInt32) :=
  [(5, 0xfffa3942), (8, 0x8771f681), (11, 0x6d9d6122), (14, 0xfde5380c),
    (1, 0xa4beea44), (4, 0x4bdecfa9), (7, 0xf6bb4b60), (10, 0xbebfbc70),
    (13, 0x289b7ec6), (0, 0xeaa127fa), (3, 0xd4ef3085), (6, 0x4881d05),
    (9, 0xd9d4d039), (12, 0xe6db99e5), (15, 0x1fa27cf8), (2, 0xc4ac5665)]

def round4 : List (ℕ × UInt32) :=
  [(0, 0xf4292244), (7, 0x432aff97), (14, 0xab9423a7), (5, 0xfc93a039),
    (12, 0x655b59c3), (3, 0x8f0ccc92), (10, 0xffeff47d), (1, 0x85845dd1),
    (8, 0x6fa87e4f), (15, 0xfe2ce6e0), (6, 0xa3014314), (13, 0x4e0811a1),
    (4, 0xf7537e82), (11, 0xbd3af235), (2, 0x2ad7d2bb), (9, 0xeb86d391)]

def decode (block : Bytes) : List UInt32 :=
  (List.range 16).map fun i => UInt32.ofNat (load 4 (4 * i) block)

def transform (state : Chain) (block : Bytes) : Chain :=
  let x := decode block
  let r := round basicF [7, 12, 17, 22] round1 x state
  let r := round basicG [5, 9, 14, 20] round2 x r
  let r := round basicH [4, 11, 16, 23] round3 x r
  let r := round basicI [6, 10, 15, 21] round4 x r
  ⟨state.a + r.a, state.b + r.b, state.c + r.c, state.d + r.d⟩

end Vs17.Md5
