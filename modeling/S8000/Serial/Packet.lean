import S8000.Foundation.Remainder

namespace S8000.Serial

open Foundation Foundation.Bytes

def soh : Byte := 0x01
def stx : Byte := 0x02
def etx : Byte := 0x03
def eot : Byte := 0x04
def ack : Byte := 0x06
def nak : Byte := 0x15
def can : Byte := 0x18

def xmodemVersion : Byte := 3
def xmodemBlockSize : ℕ := 128

/-- The characters of the requests. -/
def charR : Byte := 0x52
def charF : Byte := 0x46
def charS : Byte := 0x53
def char8 : Byte := 0x38

/-- `crc16_xmodem`: polynomial `0x1021`, initial value zero. -/
def crc16Xmodem (payload : List Byte) : Word := Remainder.remainder 0x1021 0 payload

/-- The frame of a block whose payload has 128 bytes. -/
def xmodemPacket (blockNumber : Byte) (payload : List Byte) : List Byte :=
  [soh, blockNumber, 0xFF ^^^ blockNumber] ++ payload ++
    [high (crc16Xmodem payload), low (crc16Xmodem payload)]

/-- The frame of the first protocol version. -/
def packet (payload : List Byte) : List Byte :=
  let count : Word := BitVec.ofNat 16 payload.length
  [stx, high count, low count] ++ payload ++ [xorAll (high count :: low count :: payload), etx]

/-- Block `index` of a payload. -/
def blockOf (payload : List Byte) (index : ℕ) : List Byte :=
  (payload.drop (index * xmodemBlockSize)).take xmodemBlockSize

/-- The packet that carries block `index`; block numbers start at one and wrap. -/
def blockPacket (payload : List Byte) (index : ℕ) : List Byte :=
  xmodemPacket (BitVec.ofNat 8 (index + 1)) (blockOf payload index)

end S8000.Serial
