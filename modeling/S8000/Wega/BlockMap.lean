import S8000.Foundation.Bytes

namespace S8000.Wega

open Foundation Foundation.Bytes

def bsize : ℕ := 512
def naddr : ℕ := 13
def ndirect : ℕ := naddr - 3
def nindir : ℕ := bsize / 4

/-- A disk image and the offset of the file system in it. -/
structure FS where
  data : List Byte
  base : ℕ

/-- What is used of an inode: its size and its block addresses of three bytes. -/
structure Inode where
  size : ℕ
  addr : List ℕ
  length_addr : addr.length = naddr
  addr_lt : ∀ a ∈ addr, a < 2 ^ 24

/-- `FS.block`; `none` is the `EOFError` of a short read. -/
def FS.block (fs : FS) (number : ℕ) : Option (List Byte) :=
  let data := (fs.data.drop (fs.base + number * bsize)).take bsize
  if data.length = bsize then some data else none

/-- The big-endian number in four bytes. -/
def long (raw : List Byte) : ℕ := raw.foldl (fun n b ↦ n * 256 + b.toNat) 0

/-- `struct.unpack(">128L", raw)`. -/
def words (raw : List Byte) : List ℕ := (List.range nindir).map fun i ↦ long ((raw.drop (4 * i)).take 4)

section Kernel

/-- The errors of `bmap`. -/
inductive Errno where
  | efbig
  | eio

/-- A word as a `daddr_t`. -/
def daddr (word : ℕ) : ℤ := if word < 2 ^ 31 then word else word - 2 ^ 32

/-- `bread`, from the same image. -/
def bread (fs : FS) (nb : ℤ) : Option (List Byte) := if nb < 0 then none else fs.block nb.toNat

def nshift : ℕ := 7
def nmask : ℕ := 0x7F

/-- The loop over the levels of indirection: `j`, the shift and the block number that is left. -/
def levels : ℕ → ℕ → ℕ → ℕ → Option (ℕ × ℕ × ℕ)
  | 0, _, _, _ => none
  | j + 1, sh, nb, bn =>
    let sh := sh + nshift
    let nb := nb <<< nshift
    if bn < nb then some (j + 1, sh, bn) else levels j sh nb (bn - nb)

/-- The loop through the indirect blocks with `n` passes left. -/
def fetch (fs : FS) (bn : ℕ) : ℕ → ℕ → ℤ → Except Errno ℤ
  | 0, _, nb => .ok nb
  | n + 1, sh, nb =>
    match bread fs nb with
    | none => .error .eio
    | some raw =>
      let sh := sh - nshift
      let i := (bn >>> sh) &&& nmask
      let nb := daddr ((words raw).getD i 0)
      if nb = 0 then .ok (-1) else fetch fs bn n sh nb

/-- `bmap` when it reads: a block number, or -1 for a hole. -/
def bmap (fs : FS) (ip : Inode) (bn : ℕ) : Except Errno ℤ :=
  if bn < naddr - 3 then
    let nb := ip.addr.getD bn 0
    if nb = 0 then .ok (-1) else .ok nb
  else
    match levels 3 0 1 (bn - (naddr - 3)) with
    | none => .error .efbig
    | some (j, sh, bn) =>
      let nb := ip.addr.getD (naddr - j) 0
      if nb = 0 then .ok (-1) else fetch fs bn (4 - j) sh nb

/-- The byte that a read of the kernel finds at an offset of a file, if it finds one. -/
def kernelByte (fs : FS) (ip : Inode) (k : ℕ) : Option Byte :=
  match bmap fs ip (k / bsize) with
  | .error _ => none
  | .ok nb => if nb = -1 then some 0 else (bread fs nb).bind (·[k % bsize]?)

end Kernel

section Tool

/-- What a generator yields, and `none` where it raises `EOFError`. -/
abbrev Events := List (Option ℕ)

/-- `FS._indirect`. -/
def FS.indirect (fs : FS) : ℕ → ℕ → Events
  | 0, _ => []
  | level + 1, number =>
    if number = 0 then []
    else
      match fs.block number with
      | none => [none]
      | some raw =>
        if level = 0 then ((words raw).filter (· ≠ 0)).map some
        else ((words raw).filter (· ≠ 0)).flatMap fun word ↦ fs.indirect level word

end Tool

end S8000.Wega
