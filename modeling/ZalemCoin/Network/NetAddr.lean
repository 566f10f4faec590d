import ZalemCoin.Storage.Serialize

/-!
# Network addresses

An address is sixteen bytes, in which an IPv4 address stands in the mapped range. A service adds the
port, and `CAddress` what is known about the peer. Addresses of one group are taken to be under one
hand: they share the first bytes, with the ranges that carry an IPv4 address read as that address.
-/

namespace ZalemCoin.Network

open Lib Storage

/-- An IPv4 or IPv6 address, in network byte order. -/
structure CNetAddr where
  ip : List UInt8
  length_ip : ip.length = 16
deriving DecidableEq

structure CService extends CNetAddr where
  port : UInt16
deriving DecidableEq

/-- A service with information about it as a peer. -/
structure CAddress extends CService where
  nServices : UInt64
  nTime : UInt32
  nLastTry : Int64
deriving DecidableEq

/-- The first bytes of the addresses that carry another kind of address. -/
def pchIPv4 : List UInt8 := [0, 0, 0, 0, 0, 0, 0, 0, 0, 0, 0xff, 0xff]
def pchOnionCat : List UInt8 := [0xFD, 0x87, 0xD8, 0x7E, 0xEB, 0x43]
def pchGarliCat : List UInt8 := [0xFD, 0x60, 0xDB, 0x4D, 0xDD, 0xB5]
def pchRFC6052 : List UInt8 := [0, 0x64, 0xFF, 0x9B, 0, 0, 0, 0, 0, 0, 0, 0]
def pchRFC4862 : List UInt8 := [0xFE, 0x80, 0, 0, 0, 0, 0, 0]
def pchRFC6145 : List UInt8 := [0, 0, 0, 0, 0, 0, 0, 0, 0xFF, 0xFF, 0, 0]
def pchLocal : List UInt8 := [0, 0, 0, 0, 0, 0, 0, 0, 0, 0, 0, 0, 0, 0, 0, 1]

namespace CNetAddr

variable (a : CNetAddr)

/-- `memcmp` with the bytes from `nFrom` on says that they are the same. -/
def memcmp (nFrom : ℕ) (pch : List UInt8) : Bool :=
  (a.ip.drop nFrom).take pch.length == pch

def GetByte (n : ℕ) : UInt8 := a.ip.getD (15 - n) 0

def IsIPv4 : Bool := a.memcmp 0 pchIPv4
def IsTor : Bool := a.memcmp 0 pchOnionCat
def IsI2P : Bool := a.memcmp 0 pchGarliCat

/-- IPv4 private networks. -/
def IsRFC1918 : Bool :=
  a.IsIPv4 && (a.GetByte 3 == 10 || a.GetByte 3 == 192 && a.GetByte 2 == 168
    || a.GetByte 3 == 172 && (decide (a.GetByte 2 ≥ 16) && decide (a.GetByte 2 ≤ 31)))

/-- IPv4 autoconfiguration. -/
def IsRFC3927 : Bool := a.IsIPv4 && (a.GetByte 3 == 169 && a.GetByte 2 == 254)

def IsRFC3849 : Bool :=
  a.GetByte 15 == 0x20 && a.GetByte 14 == 0x01 && a.GetByte 13 == 0x0D && a.GetByte 12 == 0xB8

/-- IPv6 6to4 tunnelling. -/
def IsRFC3964 : Bool := a.GetByte 15 == 0x20 && a.GetByte 14 == 0x02

/-- IPv6 with an IPv4 address embedded. -/
def IsRFC6052 : Bool := a.memcmp 0 pchRFC6052

/-- IPv6 Teredo tunnelling. -/
def IsRFC4380 : Bool :=
  a.GetByte 15 == 0x20 && a.GetByte 14 == 0x01 && a.GetByte 13 == 0 && a.GetByte 12 == 0

/-- IPv6 autoconfiguration. -/
def IsRFC4862 : Bool := a.memcmp 0 pchRFC4862

/-- IPv6 unique local. -/
def IsRFC4193 : Bool := a.GetByte 15 &&& 0xFE == 0xFC

/-- IPv6 IPv4-translated. -/
def IsRFC6145 : Bool := a.memcmp 0 pchRFC6145

/-- IPv6 ORCHID. -/
def IsRFC4843 : Bool :=
  a.GetByte 15 == 0x20 && a.GetByte 14 == 0x01 && a.GetByte 13 == 0x00
    && a.GetByte 12 &&& 0xF0 == 0x10

def IsLocal : Bool :=
  a.IsIPv4 && (a.GetByte 3 == 127 || a.GetByte 3 == 0) || a.memcmp 0 pchLocal

def IsValid : Bool :=
  -- Addresses that were read three bytes too late from a garbled message.
  !a.memcmp 0 (pchIPv4.drop 3) && !a.memcmp 0 (List.replicate 16 0) && !a.IsRFC3849
    && !(a.IsIPv4 && (a.memcmp 12 (List.replicate 4 0xFF) || a.memcmp 12 (List.replicate 4 0)))

def IsRoutable : Bool :=
  a.IsValid && !(a.IsRFC1918 || a.IsRFC3927 || a.IsRFC4862
    || a.IsRFC4193 && !a.IsTor && !a.IsI2P || a.IsRFC4843 || a.IsLocal)

/-- The kinds of networks, as they stand in a group. -/
def NET_UNROUTABLE : UInt8 := 0
def NET_IPV4 : UInt8 := 1
def NET_IPV6 : UInt8 := 2
def NET_TOR : UInt8 := 3
def NET_I2P : UInt8 := 4

/-- The class and the first bits from a byte on. A byte of which only the first bits count has the
lower `nBits % 8` bits set. -/
def groupBits (nClass : UInt8) (nStartByte nBits : ℕ) : List UInt8 :=
  nClass :: (List.range (nBits / 8)).map (fun i => a.GetByte (15 - (nStartByte + i)))
    ++ if nBits % 8 > 0 then
        [a.GetByte (15 - (nStartByte + nBits / 8)) ||| UInt8.ofNat (2 ^ (nBits % 8) - 1)]
      else []

/-- The canonical identifier of the group of an address. Local addresses are not routable, so the
class that the source gives them first is always replaced. -/
def GetGroup : List UInt8 :=
  if !a.IsRoutable then a.groupBits NET_UNROUTABLE 0 0
  else if a.IsIPv4 || a.IsRFC6145 || a.IsRFC6052 then a.groupBits NET_IPV4 12 16
  else if a.IsRFC3964 then a.groupBits NET_IPV4 2 16
  else if a.IsRFC4380 then [NET_IPV4, a.GetByte 3 ^^^ 0xFF, a.GetByte 2 ^^^ 0xFF]
  else if a.IsTor then a.groupBits NET_TOR 6 4
  else if a.IsI2P then a.groupBits NET_I2P 6 4
  else if a.GetByte 15 == 0x20 && a.GetByte 14 == 0x01 && a.GetByte 13 == 0x04
      && a.GetByte 12 == 0x70 then
    a.groupBits NET_IPV6 0 36
  else a.groupBits NET_IPV6 0 32

end CNetAddr

/-- The bytes of the address and the port, the high byte of the port first. -/
def CService.GetKey (s : CService) : List UInt8 :=
  s.ip ++ [UInt8.ofNat (s.port.toNat / 0x100), UInt8.ofNat (s.port.toNat % 0x100)]

/-- The port in network byte order, and back. -/
def htons (port : UInt16) : UInt16 := UInt16.ofNat (port.toNat % 256 * 256 + port.toNat / 256)
def ntohs (port : UInt16) : UInt16 := htons port

/-- `Serialize` and `Unserialize` of the three kinds of addresses on disk. -/
def writeNetAddr (a : CNetAddr) : List UInt8 := a.ip
def readNetAddr : Reader CNetAddr :=
  (fun bytes => ⟨bytes.val, bytes.property⟩) <$> Reader.takeSized 16

def writeService (s : CService) : List UInt8 := s.ip ++ writeUInt16 (htons s.port)
def readService : Reader CService := do
  let a ← readNetAddr
  let portN ← readUInt16
  pure { a with port := ntohs portN }

def writeAddress (nVersion : Int32) (addr : CAddress) : List UInt8 :=
  writeInt32 nVersion ++ (writeUInt32 addr.nTime ++ (writeUInt64 addr.nServices
    ++ writeService addr.toCService))
def readAddress : Reader CAddress := do
  let _ ← readInt32
  let nTime ← readUInt32
  let nServices ← readUInt64
  let s ← readService
  pure { s with nServices := nServices, nTime := nTime, nLastTry := 0 }

theorem toNat_htons (port : UInt16) :
    (htons port).toNat = port.toNat % 256 * 256 + port.toNat / 256 := by
  have hlt := port.toNat_lt
  unfold htons
  rw [UInt16.toNat_ofNat']
  omega

theorem ntohs_htons (port : UInt16) : ntohs (htons port) = port := by
  apply UInt16.toNat_inj.mp
  have hlt := port.toNat_lt
  unfold ntohs
  rw [toNat_htons, toNat_htons]
  omega

theorem reads_netAddr (a : CNetAddr) : Reads readNetAddr (writeNetAddr a) a :=
  (Reads.takeSized a.ip a.length_ip).map _

theorem reads_service (s : CService) : Reads readService (writeService s) s := by
  have hport : ({ s.toCNetAddr with port := ntohs (htons s.port) } : CService) = s := by
    rw [ntohs_htons]
  apply Reads.bind (reads_netAddr s.toCNetAddr)
  have hread := (reads_uint16 (htons s.port)).map
    fun portN => ({ s.toCNetAddr with port := ntohs portN } : CService)
  rwa [hport] at hread

theorem reads_address (nVersion : Int32) (addr : CAddress) :
    Reads readAddress (writeAddress nVersion addr) { addr with nLastTry := 0 } := by
  apply Reads.bind (reads_int32 nVersion)
  apply Reads.bind (reads_uint32 addr.nTime)
  apply Reads.bind (reads_uint64 addr.nServices)
  exact (reads_service addr.toCService).map fun s =>
    ({ s with nServices := addr.nServices, nTime := addr.nTime, nLastTry := 0 } : CAddress)

end ZalemCoin.Network
