import Vs17.Library.Words

/-! # Message headers

The packed structs of the device and the conference protocol, as fields at byte
offsets, and the byte-order functions of the socket library on a little-endian
host. On the wire a message is an `Overload`, a management header and a JSON text.
-/

namespace Vs17.Asio

open Words

def ntohs (x : ℕ) : ℕ := bswap 2 x
def htons (x : ℕ) : ℕ := bswap 2 x
def ntohl (x : ℕ) : ℕ := bswap 4 x
def htonl (x : ℕ) : ℕ := bswap 4 x
def ntohll (x : ℕ) : ℕ := bswap 8 x
def htonll (x : ℕ) : ℕ := bswap 8 x

/-- A member of a packed struct. -/
structure Field where
  off : ℕ
  size : ℕ
  deriving DecidableEq, Repr

namespace Field

/-- The member's value in a struct laid over memory at `base`. -/
def get (f : Field) (base : ℕ) (b : Bytes) : ℕ := load f.size (base + f.off) b

/-- Assign the member in a struct laid over memory at `base`. -/
def set (f : Field) (base x : ℕ) (b : Bytes) : Bytes := store f.size (base + f.off) x b

variable {f g : Field} {base base' x : ℕ} {b : Bytes}

@[simp] theorem length_set : (f.set base x b).length = b.length := length_store ..

theorem get_set_self (h : base + f.off + f.size ≤ b.length) :
    f.get base (f.set base x b) = x % 256 ^ f.size :=
  load_store_self h

theorem get_set_of_disjoint
    (h : base + f.off + f.size ≤ base' + g.off ∨ base' + g.off + g.size ≤ base + f.off) :
    f.get base (g.set base' x b) = f.get base b :=
  load_store_of_disjoint h

theorem get_blit_of_le {k : ℕ} {src : Bytes} (h : base + f.off + f.size ≤ k) :
    f.get base (blit k src b) = f.get base b :=
  load_blit_of_disjoint (.inl h)

theorem get_take {k : ℕ} (h : base + f.off + f.size ≤ k) : f.get base (b.take k) = f.get base b :=
  load_take h

end Field

namespace Overload

def tag : Field := ⟨0, 2⟩
def len : Field := ⟨2, 2⟩

/-- `sizeof(Overload)`. -/
def sizeof : ℕ := 4

end Overload

namespace DeviceMngHead

def begin : Field := ⟨0, 4⟩
def taskNo : Field := ⟨4, 4⟩
def deviceNo : Field := ⟨8, 4⟩
def cmdType : Field := ⟨12, 2⟩
def cmd : Field := ⟨14, 4⟩
def ret : Field := ⟨18, 2⟩
def len : Field := ⟨20, 4⟩

/-- `sizeof(DeviceMngHead)`, packed. -/
def sizeof : ℕ := 24

end DeviceMngHead

namespace ConferenceMngHead

def version (i : Fin 4) : Field := ⟨i, 1⟩
def cmd : Field := ⟨4, 2⟩
def len : Field := ⟨6, 4⟩
def id : Field := ⟨10, 8⟩
def total : Field := ⟨18, 2⟩
def index : Field := ⟨20, 2⟩

/-- `sizeof(ConferenceMngHead)`, packed. -/
def sizeof : ℕ := 22

end ConferenceMngHead

/-- The announced length `ntohs(overload->len)` of the message at the front. -/
def announced (b : Bytes) : ℕ := ntohs (Overload.len.get 0 b)

theorem ntohs_lt (x : ℕ) : ntohs x < 65536 := bswap_lt 2 x

theorem htons_lt (x : ℕ) : htons x < 65536 := bswap_lt 2 x

theorem ntohs_htons (x : ℕ) : ntohs (htons x) = x % 65536 := bswap_bswap 2 x

theorem ntohs_htons_mod (x : ℕ) : ntohs (htons x % 256 ^ 2) = x % 65536 :=
  (congrArg ntohs (Nat.mod_eq_of_lt (htons_lt x))).trans (ntohs_htons x)

theorem announced_lt (b : Bytes) : announced b < 65536 := ntohs_lt _

/-- Bytes behind the `Overload` do not change the announced length. -/
theorem announced_append {b c : Bytes} (h : Overload.sizeof ≤ b.length) :
    announced (b ++ c) = announced b := by
  rw [announced, announced, Field.get, Field.get, load_append (by exact h)]

end Vs17.Asio
