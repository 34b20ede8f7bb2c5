import RootHelper.FreeNames
import RootHelper.Sequences.Checksums

/-!
The datagrams in which a server announces itself: what is sent over a whole run of the announcing, that each
of them can be read back, and that a short damage to one is noticed.
-/

set_option autoImplicit false

namespace RootHelper
open Posix Sequences

def CRC32_T0 : List UInt32 :=
  [0x00000000,0x77073096,0xEE0E612C,0x990951BA,0x076DC419,0x706AF48F,0xE963A535,0x9E6495A3,
  0x0EDB8832,0x79DCB8A4,0xE0D5E91E,0x97D2D988,0x09B64C2B,0x7EB17CBD,0xE7B82D07,0x90BF1D91,
  0x1DB71064,0x6AB020F2,0xF3B97148,0x84BE41DE,0x1ADAD47D,0x6DDDE4EB,0xF4D4B551,0x83D385C7,
  0x136C9856,0x646BA8C0,0xFD62F97A,0x8A65C9EC,0x14015C4F,0x63066CD9,0xFA0F3D63,0x8D080DF5,
  0x3B6E20C8,0x4C69105E,0xD56041E4,0xA2677172,0x3C03E4D1,0x4B04D447,0xD20D85FD,0xA50AB56B,
  0x35B5A8FA,0x42B2986C,0xDBBBC9D6,0xACBCF940,0x32D86CE3,0x45DF5C75,0xDCD60DCF,0xABD13D59,
  0x26D930AC,0x51DE003A,0xC8D75180,0xBFD06116,0x21B4F4B5,0x56B3C423,0xCFBA9599,0xB8BDA50F,
  0x2802B89E,0x5F058808,0xC60CD9B2,0xB10BE924,0x2F6F7C87,0x58684C11,0xC1611DAB,0xB6662D3D,
  0x76DC4190,0x01DB7106,0x98D220BC,0xEFD5102A,0x71B18589,0x06B6B51F,0x9FBFE4A5,0xE8B8D433,
  0x7807C9A2,0x0F00F934,0x9609A88E,0xE10E9818,0x7F6A0DBB,0x086D3D2D,0x91646C97,0xE6635C01,
  0x6B6B51F4,0x1C6C6162,0x856530D8,0xF262004E,0x6C0695ED,0x1B01A57B,0x8208F4C1,0xF50FC457,
  0x65B0D9C6,0x12B7E950,0x8BBEB8EA,0xFCB9887C,0x62DD1DDF,0x15DA2D49,0x8CD37CF3,0xFBD44C65,
  0x4DB26158,0x3AB551CE,0xA3BC0074,0xD4BB30E2,0x4ADFA541,0x3DD895D7,0xA4D1C46D,0xD3D6F4FB,
  0x4369E96A,0x346ED9FC,0xAD678846,0xDA60B8D0,0x44042D73,0x33031DE5,0xAA0A4C5F,0xDD0D7CC9,
  0x5005713C,0x270241AA,0xBE0B1010,0xC90C2086,0x5768B525,0x206F85B3,0xB966D409,0xCE61E49F,
  0x5EDEF90E,0x29D9C998,0xB0D09822,0xC7D7A8B4,0x59B33D17,0x2EB40D81,0xB7BD5C3B,0xC0BA6CAD,
  0xEDB88320,0x9ABFB3B6,0x03B6E20C,0x74B1D29A,0xEAD54739,0x9DD277AF,0x04DB2615,0x73DC1683,
  0xE3630B12,0x94643B84,0x0D6D6A3E,0x7A6A5AA8,0xE40ECF0B,0x9309FF9D,0x0A00AE27,0x7D079EB1,
  0xF00F9344,0x8708A3D2,0x1E01F268,0x6906C2FE,0xF762575D,0x806567CB,0x196C3671,0x6E6B06E7,
  0xFED41B76,0x89D32BE0,0x10DA7A5A,0x67DD4ACC,0xF9B9DF6F,0x8EBEEFF9,0x17B7BE43,0x60B08ED5,
  0xD6D6A3E8,0xA1D1937E,0x38D8C2C4,0x4FDFF252,0xD1BB67F1,0xA6BC5767,0x3FB506DD,0x48B2364B,
  0xD80D2BDA,0xAF0A1B4C,0x36034AF6,0x41047A60,0xDF60EFC3,0xA867DF55,0x316E8EEF,0x4669BE79,
  0xCB61B38C,0xBC66831A,0x256FD2A0,0x5268E236,0xCC0C7795,0xBB0B4703,0x220216B9,0x5505262F,
  0xC5BA3BBE,0xB2BD0B28,0x2BB45A92,0x5CB36A04,0xC2D7FFA7,0xB5D0CF31,0x2CD99E8B,0x5BDEAE1D,
  0x9B64C2B0,0xEC63F226,0x756AA39C,0x026D930A,0x9C0906A9,0xEB0E363F,0x72076785,0x05005713,
  0x95BF4A82,0xE2B87A14,0x7BB12BAE,0x0CB61B38,0x92D28E9B,0xE5D5BE0D,0x7CDCEFB7,0x0BDBDF21,
  0x86D3D2D4,0xF1D4E242,0x68DDB3F8,0x1FDA836E,0x81BE16CD,0xF6B9265B,0x6FB077E1,0x18B74777,
  0x88085AE6,0xFF0F6A70,0x66063BCA,0x11010B5C,0x8F659EFF,0xF862AE69,0x616BFFD3,0x166CCF45,
  0xA00AE278,0xD70DD2EE,0x4E048354,0x3903B3C2,0xA7672661,0xD06016F7,0x4969474D,0x3E6E77DB,
  0xAED16A4A,0xD9D65ADC,0x40DF0B66,0x37D83BF0,0xA9BCAE53,0xDEBB9EC5,0x47B2CF7F,0x30B5FFE9,
  0xBDBDF21C,0xCABAC28A,0x53B39330,0x24B4A3A6,0xBAD03605,0xCDD70693,0x54DE5729,0x23D967BF,
  0xB3667A2E,0xC4614AB8,0x5D681B02,0x2A6F2B94,0xB40BBE37,0xC30C8EA1,0x5A05DF1B,0x2D02EF8D]

def crc32_byte (tmp : UInt32) (input : Byte) : UInt32 :=
  CRC32_T0.getD ((tmp ^^^ input.toUInt32) &&& 0xFF).toNat 0 ^^^ (tmp >>> 8)

/-- Sixteen bytes in each turn, then the rest. -/
def add_data (tmp : UInt32) (input : Str) : UInt32 :=
  if 16 ≤ input.length then add_data ((input.take 16).foldl crc32_byte tmp) (input.drop 16)
  else input.foldl crc32_byte tmp
termination_by input.length

def store_be (n : UInt32) : Str := (littleEndian 4 n.toNat).reverse

def crc32Final (input : Str) : Str := store_be (add_data 0xFFFFFFFF input ^^^ 0xFFFFFFFF)

def announcePayload (port : Nat) (ip path : Str) : Str :=
  let ipLength := ip.length % 65536
  let pathLength := path.length % 65536
  littleEndian 2 port ++ (littleEndian 2 ipLength ++ (ip.take ipLength ++
    (littleEndian 2 pathLength ++ path.take pathLength)))

def getPreparedAnnounce (port : Nat) (ip path : Str) : Str :=
  (crc32Final (announcePayload port ip path)).reverse ++ announcePayload port ip path

/-- The port, the address and the path of an announce, if its checksum and its lengths are right. -/
def readAnnounce (announce : Str) : Option (Nat × Str × Str) :=
  let payload := announce.drop 4
  let ipLength := fromLittleEndian ((payload.drop 2).take 2)
  let rest := (payload.drop 4).drop ipLength
  let pathLength := fromLittleEndian (rest.take 2)
  if announce.take 4 = (crc32Final payload).reverse ∧ rest.length = 2 + pathLength then
    some (fromLittleEndian (payload.take 2),(payload.drop 4).take ipLength,rest.drop 2)
  else none

structure in_addr where
  a : Byte
  b : Byte
  c : Byte
  d : Byte
  deriving DecidableEq, Repr

def inet_ntoa (x : in_addr) : Str :=
  [dot].intercalate [toStr x.a.toNat,toStr x.b.toNat,toStr x.c.toNat,toStr x.d.toNat]

def octet (s : Str) : Option Byte := ((List.range 256).find? fun n => toStr n = s).map UInt8.ofNat

/-- Of the forms it knows, the one with four decimal numbers. -/
def inet_aton (s : Str) : Option in_addr :=
  match s.splitOn dot with
  | [a,b,c,d] => do
    let a ← octet a
    let b ← octet b
    let c ← octet c
    let d ← octet d
    some ⟨a,b,c,d⟩
  | _ => none

inductive sockaddr where
  | inet (sin_addr : in_addr)
  | other
  deriving DecidableEq, Repr

/-- What `getifaddrs` tells of one interface, which need have neither an address nor a netmask. -/
structure ifaddrs where
  ifa_addr : Option sockaddr
  ifa_netmask : Option in_addr
  deriving DecidableEq, Repr

/-- A `getifaddrs` that fails sets no pointer, and it is up to the system whether the free behind it is passed. -/
inductive Interfaces where
  | listed (interfaces : List ifaddrs)
  | failed (freed : Bool)
  deriving DecidableEq, Repr

def in_addr.broadcast (ips nms : in_addr) : in_addr :=
  ⟨ips.a ||| ~~~nms.a,ips.b ||| ~~~nms.b,ips.c ||| ~~~nms.c,ips.d ||| ~~~nms.d⟩

/-- One turn of the loop; none where the process ends on a pointer that is not there. -/
def ifaddrs.addresses (temp_addr : ifaddrs) : Option (List (Str × Str)) := do
  match ← temp_addr.ifa_addr with
  | .other => some []
  | .inet ips =>
    let ipAddr := inet_ntoa ips
    if ipAddr = text ['1','2','7','.','0','.','0','.','1'] ∨ ipAddr = text ['0','.','0','.','0','.','0'] then
      some []
    else do
      let nms ← temp_addr.ifa_netmask
      some [(ipAddr,inet_ntoa (ips.broadcast nms))]

def getIPAddressesWithBroadcasts : Interfaces → Option (List (Str × Str))
  | .listed interfaces => (interfaces.mapM ifaddrs.addresses).map List.flatten
  | .failed freed => if freed then some [] else none

def XRE_ANNOUNCE_SERVERPORT : Nat := 11111

inductive Target where
  | broadcast (sin_addr : in_addr)
  | multicast
  deriving DecidableEq, Repr

section Announcing

variable (path : Str) (multicast : Bool)

/-- To each address in turn; a text that is none leaves the one before it. -/
def announceRound : List (Str × Str) → in_addr → List (Target × Str) × in_addr
  | [], sin_addr => ([],sin_addr)
  | pair :: ipAddresses, sin_addr =>
    let sin_addr := (inet_aton pair.2).getD sin_addr
    let announce := getPreparedAnnounce XRE_ANNOUNCE_SERVERPORT pair.1 path
    let (sent,last) := announceRound ipAddresses sin_addr
    ((.broadcast sin_addr,announce) :: (if multicast then [(.multicast,announce)] else []) ++ sent,last)

def announceRounds (ipAddresses : List (Str × Str)) : Nat → in_addr → List (Target × Str)
  | 0, _ => []
  | rounds+1, sin_addr =>
    let (sent,last) := announceRound path multicast ipAddresses sin_addr
    sent ++ announceRounds ipAddresses rounds last

/-- The result and what is given to `sendto`, with a socket for broadcasts and perhaps one for multicasts. It
goes on whatever `sendto` says. -/
def xre_announce (socket setsockopt : Bool) (interfaces : Interfaces) : Option (Int × List (Target × Str)) :=
  if socket = false then some (-1,[])
  else if setsockopt = false then some (-2,[])
  else do
    let ipAddresses ← getIPAddressesWithBroadcasts interfaces
    if ipAddresses = [] then some (-4,[])
    else some (0,announceRounds path multicast ipAddresses 15 ⟨0,0,0,0⟩)

end Announcing

section Checksum

def crc32Table (i : BitVec 8) : BitVec 32 := (CRC32_T0.getD i.toNat 0).toBitVec

theorem crc32_byte_toBitVec (tmp : UInt32) (input : Byte) :
    (crc32_byte tmp input).toBitVec = tableStep crc32Table tmp.toBitVec input.toBitVec := by
  have hindex : ((tmp ^^^ input.toUInt32) &&& 0xFF).toNat =
      (tableIndex tmp.toBitVec input.toBitVec).toNat := by
    have hmask : (0xFF : UInt32).toNat = 2^8 - 1 := by decide
    have hsmall : input.toNat % 2^8 = input.toNat := Nat.mod_eq_of_lt input.toNat_lt
    rw [UInt32.toNat_and,hmask,Nat.and_two_pow_sub_one_eq_mod,UInt32.toNat_xor,Nat.xor_mod_two_pow,
      UInt8.toNat_toUInt32,hsmall]
    simp [tableIndex]
  rw [crc32_byte,UInt32.toBitVec_xor,hindex]
  rfl

theorem add_data_eq (tmp : UInt32) (input : Str) : add_data tmp input = input.foldl crc32_byte tmp := by
  fun_induction add_data with
  | case1 tmp input _ ih => rw [ih,← List.foldl_append,List.take_append_drop]
  | case2 => rfl

theorem add_data_toBitVec (tmp : UInt32) (input : Str) : (add_data tmp input).toBitVec =
    tableRun crc32Table tmp.toBitVec (input.map UInt8.toBitVec) := by
  rw [add_data_eq]
  induction input generalizing tmp with
  | nil => rfl
  | cons b input ih => rw [List.foldl_cons,ih,crc32_byte_toBitVec,List.map_cons,tableRun_cons]

/-- The index an upper byte comes from, which depends on it bit by bit. -/
def crc32Index (top : Nat) : Nat :=
  ([65,195,134,77,154,117,234,149].zipIdx.foldl fun index (c,k) => if top.testBit k then index ^^^ c else index) 0

theorem crc32_top_distinct : TopDistinct crc32Table := by
  have hback : CRC32_T0.map (fun n => crc32Index (n.toNat / 2^24)) = List.range 256 := by decide +kernel
  have index : ∀ i : BitVec 8, crc32Index (crc32Table i >>> (32-8)).toNat = i.toNat := by
    intro i
    have hi := congrArg (fun l : List Nat => l[i.toNat]?) hback
    simp only [List.getElem?_map,List.getElem?_range i.isLt] at hi
    obtain ⟨n,hn,hindex⟩ := Option.map_eq_some_iff.mp hi
    rw [BitVec.toNat_ushiftRight,Nat.shiftRight_eq_div_pow,crc32Table,UInt32.toNat_toBitVec,
      List.getD_eq_getElem?_getD,hn]
    exact hindex
  intro i j h
  exact BitVec.eq_of_toNat_eq (by rw [← index i,h,index j])

theorem store_be_inj {n m : UInt32} (h : store_be n = store_be m) : n = m := by
  have hnumbers := congrArg fromLittleEndian (List.reverse_injective h)
  have hn : n.toNat < 256^4 := n.toNat_lt
  have hm : m.toNat < 256^4 := m.toNat_lt
  rw [fromLittleEndian_littleEndian,fromLittleEndian_littleEndian,Nat.mod_eq_of_lt hn,
    Nat.mod_eq_of_lt hm] at hnumbers
  exact UInt32.toNat_inj.mp hnumbers

theorem length_crc32 (input : Str) : (crc32Final input).length = 4 := by
  rw [crc32Final,store_be,List.length_reverse,length_littleEndian]

theorem crc32_burst {front x y back : Str} (hlen : x.length = y.length) (hshort : x.length ≤ 4)
    (h : crc32Final (front ++ (x ++ back)) = crc32Final (front ++ (y ++ back))) : x = y := by
  have hsums := congrArg UInt32.toBitVec (store_be_inj h)
  rw [UInt32.toBitVec_xor,UInt32.toBitVec_xor,BitVec.xor_left_inj,add_data_toBitVec,add_data_toBitVec] at hsums
  simp only [List.map_append] at hsums
  have hmaps := eq_of_tableRun crc32_top_distinct (by decide) (by simpa using hlen)
    (by rw [List.length_map]; omega) hsums
  exact List.map_injective_iff.mpr (fun _ _ => UInt8.toBitVec_inj.mp) hmaps

end Checksum

section Reading

variable {port : Nat} {ip path : Str}

theorem readAnnounce_prepared (hport : port < 65536) (hip : ip.length < 65536) (hpath : path.length < 65536) :
    readAnnounce (getPreparedAnnounce port ip path) = some (port,ip,path) := by
  have hsum : ((crc32Final (announcePayload port ip path)).reverse).length = 4 := by
    rw [List.length_reverse,length_crc32]
  have number : ∀ n, n < 65536 → fromLittleEndian (littleEndian 2 n) = n := fun n hn => by
    rw [fromLittleEndian_littleEndian]
    exact Nat.mod_eq_of_lt hn
  have two : ∀ (n : Nat) (s : Str), (littleEndian 2 n ++ s).take 2 = littleEndian 2 n ∧
      (littleEndian 2 n ++ s).drop 2 = s := fun n s =>
    ⟨List.take_left' (length_littleEndian 2 n),List.drop_left' (length_littleEndian 2 n)⟩
  unfold readAnnounce getPreparedAnnounce
  rw [List.drop_left' hsum,List.take_left' hsum]
  have hpayload : announcePayload port ip path = littleEndian 2 port ++ (littleEndian 2 ip.length ++
      (ip ++ (littleEndian 2 path.length ++ path))) := by
    rw [announcePayload,Nat.mod_eq_of_lt hip,Nat.mod_eq_of_lt hpath,List.take_length,List.take_length]
  have hfour : (announcePayload port ip path).drop 4 = ip ++ (littleEndian 2 path.length ++ path) := by
    rw [hpayload,← List.drop_drop (i := 2) (j := 2),(two _ _).2,(two _ _).2]
  simp only [hfour]
  simp only [hpayload,two,number _ hip,number _ hport,number _ hpath,List.drop_left,List.take_left]
  rw [if_pos ⟨trivial,by rw [List.length_append,length_littleEndian]⟩]

/-- An announce that is damaged in up to four bytes in a row is not taken for one, as long as they are all of
the checksum or all behind it. -/
theorem announce_damage_seen {front x y back : Str}
    (h : getPreparedAnnounce port ip path = front ++ (x ++ back)) (hlen : x.length = y.length)
    (hshort : x.length ≤ 4) (hside : front.length + x.length ≤ 4 ∨ 4 ≤ front.length) (hne : x ≠ y) :
    readAnnounce (front ++ (y ++ back)) = none := by
  have hsum : ((crc32Final (announcePayload port ip path)).reverse).length = 4 := by
    rw [List.length_reverse,length_crc32]
  have htake : (front ++ (x ++ back)).take 4 = (crc32Final ((front ++ (x ++ back)).drop 4)).reverse := by
    rw [← h,getPreparedAnnounce,List.take_left' hsum,List.drop_left' hsum]
  unfold readAnnounce
  refine if_neg fun hand => hne ?_
  obtain ⟨hcheck,_⟩ := hand
  rcases hside with hside | hside
  · -- behind the checksum nothing is changed
    have hdrop : ∀ z : Str, front.length + z.length ≤ 4 →
        (front ++ (z ++ back)).drop 4 = back.drop (4 - front.length - z.length) := by
      intro z hz
      rw [List.drop_append,List.drop_append,List.drop_of_length_le (by omega),
        List.drop_of_length_le (by omega)]
      rfl
    have hfront : ∀ z : Str, front.length + z.length ≤ 4 →
        (front ++ (z ++ back)).take 4 = front ++ (z ++ back.take (4 - front.length - z.length)) := by
      intro z hz
      rw [List.take_append,List.take_append,List.take_of_length_le (by omega),
        List.take_of_length_le (by omega)]
    rw [hdrop y (by omega),← hlen,← hdrop x hside,← htake,hfront x hside,hfront y (by omega),← hlen] at hcheck
    exact (List.append_cancel_right (List.append_cancel_left hcheck)).symm
  · rw [List.take_append_of_le_length hside,List.drop_append_of_le_length hside] at htake hcheck
    exact crc32_burst hlen hshort (List.reverse_injective (htake.symm.trans hcheck))

end Reading

/-- Another port, under the checksum of the first one. -/
theorem announce_damage_seen_port :
    readAnnounce ((crc32Final (announcePayload XRE_ANNOUNCE_SERVERPORT [] [])).reverse ++
      ([0,0] ++ (littleEndian 2 0 ++ ([] ++ (littleEndian 2 0 ++ []))))) = none :=
  @announce_damage_seen XRE_ANNOUNCE_SERVERPORT [] [] _ (littleEndian 2 XRE_ANNOUNCE_SERVERPORT) [0,0] _ rfl
    rfl (by decide) (.inr (by rw [List.length_reverse,length_crc32])) (by decide)

section Addresses

theorem octet_toStr (b : Byte) : octet (toStr b.toNat) = some b := by
  have hsome : ((List.range 256).find? fun n => toStr n = toStr b.toNat).isSome :=
    List.find?_isSome.mpr ⟨b.toNat,List.mem_range.mpr b.toNat_lt,by simp⟩
  obtain ⟨n,hn⟩ := Option.isSome_iff_exists.mp hsome
  have hsame := List.find?_some hn
  simp only [decide_eq_true_eq] at hsame
  rw [octet,hn,toStr_inj hsame]
  exact congrArg some (UInt8.ofNat_toNat)

theorem inet_aton_ntoa (x : in_addr) : inet_aton (inet_ntoa x) = some x := by
  have hdots : ∀ n, dot ∉ toStr n := fun n h => by
    have hdigit := toStr_digit h
    revert hdigit
    decide
  have hsplit : (inet_ntoa x).splitOn dot =
      [toStr x.a.toNat,toStr x.b.toNat,toStr x.c.toNat,toStr x.d.toNat] := by
    refine List.splitOn_intercalate dot (fun l hl => ?_) (by simp)
    simp only [List.mem_cons,List.not_mem_nil,or_false] at hl
    rcases hl with rfl | rfl | rfl | rfl <;> exact hdots _
  simp only [inet_aton,hsplit,octet_toStr]
  rfl

theorem inet_ntoa_inj {x y : in_addr} (h : inet_ntoa x = inet_ntoa y) : x = y := by
  have hback := congrArg inet_aton h
  rw [inet_aton_ntoa,inet_aton_ntoa] at hback
  exact Option.some.inj hback

end Addresses

/-- An address of the kind that is announced, and none of two. -/
def ifaddrs.announced (i : ifaddrs) : Option in_addr :=
  match i.ifa_addr with
  | some (.inet addr) => if addr = ⟨127,0,0,1⟩ ∨ addr = ⟨0,0,0,0⟩ then none else some addr
  | _ => none

def ifaddrs.Complete (i : ifaddrs) : Prop :=
  i.ifa_addr.isSome ∧ (i.announced.isSome → i.ifa_netmask.isSome)

/-- The announced address and the broadcast address of its network. -/
def ifaddrs.network (i : ifaddrs) : Option (in_addr × in_addr) := do
  let addr ← i.announced
  let netmask ← i.ifa_netmask
  some (addr,addr.broadcast netmask)

def Interfaces.list : Interfaces → List ifaddrs
  | .listed interfaces => interfaces
  | .failed _ => []

def Interfaces.Complete : Interfaces → Prop
  | .listed interfaces => ∀ i ∈ interfaces, i.Complete
  | .failed freed => freed = true

/-- What is to be read where an address is announced once. -/
def heard (path : Str) (multicast : Bool) (network : in_addr × in_addr) :
    List (Target × Option (Nat × Str × Str)) :=
  (.broadcast network.2 :: if multicast then [.multicast] else []).map fun target =>
    (target,some (XRE_ANNOUNCE_SERVERPORT,inet_ntoa network.1,path))

section Run

variable {path : Str} {multicast : Bool}

theorem addresses_eq (i : ifaddrs) (h : i.Complete) : i.addresses =
    some ((i.network.map fun network => (inet_ntoa network.1,inet_ntoa network.2)).toList) := by
  have hlocal : text ['1','2','7','.','0','.','0','.','1'] = inet_ntoa ⟨127,0,0,1⟩ := by decide +kernel
  have hany : text ['0','.','0','.','0','.','0'] = inet_ntoa ⟨0,0,0,0⟩ := by decide +kernel
  have same : ∀ x y, inet_ntoa x = inet_ntoa y ↔ x = y := fun x y => ⟨inet_ntoa_inj,fun h => by rw [h]⟩
  obtain ⟨addr,netmask⟩ := i
  obtain ⟨hsome,hmask⟩ := h
  match addr with
  | none => cases hsome
  | some .other => rfl
  | some (.inet ips) =>
    by_cases hskip : ips = ⟨127,0,0,1⟩ ∨ ips = ⟨0,0,0,0⟩
    · simp [ifaddrs.addresses,ifaddrs.network,ifaddrs.announced,hlocal,hany,same,hskip]
    · have hgiven : (ifaddrs.announced ⟨some (.inet ips),netmask⟩).isSome := by
        simp [ifaddrs.announced,hskip]
      obtain ⟨nms,hnms⟩ := Option.isSome_iff_exists.mp (hmask hgiven)
      simp only at hnms
      simp [ifaddrs.addresses,ifaddrs.network,ifaddrs.announced,hlocal,hany,same,hskip,hnms]

theorem addresses_none (i : ifaddrs) (h : ¬ i.Complete) : i.addresses = none := by
  have hlocal : text ['1','2','7','.','0','.','0','.','1'] = inet_ntoa ⟨127,0,0,1⟩ := by decide +kernel
  have hany : text ['0','.','0','.','0','.','0'] = inet_ntoa ⟨0,0,0,0⟩ := by decide +kernel
  have same : ∀ x y, inet_ntoa x = inet_ntoa y ↔ x = y := fun x y => ⟨inet_ntoa_inj,fun h => by rw [h]⟩
  obtain ⟨addr,netmask⟩ := i
  match addr with
  | none => rfl
  | some .other => exact absurd ⟨rfl,fun h => by cases h⟩ h
  | some (.inet ips) =>
    by_cases hskip : ips = ⟨127,0,0,1⟩ ∨ ips = ⟨0,0,0,0⟩
    · exact absurd ⟨rfl,fun h => by simp [ifaddrs.announced,hskip] at h⟩ h
    · match netmask with
      | none => simp [ifaddrs.addresses,hlocal,hany,same,hskip]
      | some nms => exact absurd ⟨rfl,fun _ => rfl⟩ h

theorem getIPAddressesWithBroadcasts_eq {interfaces : Interfaces} (h : interfaces.Complete) :
    getIPAddressesWithBroadcasts interfaces = some ((interfaces.list.filterMap ifaddrs.network).map
      fun network => (inet_ntoa network.1,inet_ntoa network.2)) := by
  match interfaces with
  | .failed freed =>
    cases h
    rfl
  | .listed l =>
    rw [getIPAddressesWithBroadcasts,Interfaces.list]
    induction l with
    | nil => rfl
    | cons i l ih =>
      have hrest := ih fun j hj => h j (.tail _ hj)
      rw [Option.map_eq_some_iff] at hrest
      obtain ⟨lists,hlists,hflat⟩ := hrest
      rw [List.mapM_cons,addresses_eq i (h i (.head _)),hlists,List.filterMap_cons]
      match i.network with
      | none => simpa using hflat
      | some network => simpa using hflat

theorem getIPAddressesWithBroadcasts_none {interfaces : Interfaces} (h : ¬ interfaces.Complete) :
    getIPAddressesWithBroadcasts interfaces = none := by
  match interfaces with
  | .failed freed =>
    cases freed with
    | true => exact absurd rfl h
    | false => rfl
  | .listed l =>
    rw [getIPAddressesWithBroadcasts,Option.map_eq_none_iff]
    induction l with
    | nil => exact absurd (fun _ hi => nomatch hi) h
    | cons i l ih =>
      rw [List.mapM_cons]
      by_cases hi : i.Complete
      · have hl : ¬ (Interfaces.listed l).Complete := fun hl => h fun j hj => by
          rcases List.mem_cons.mp hj with rfl | hj
          · exact hi
          · exact hl j hj
        rw [ih hl,addresses_eq i hi]
        rfl
      · rw [addresses_none i hi]
        rfl

theorem length_inet_ntoa (x : in_addr) : (inet_ntoa x).length < 65536 := by
  have hlen : ∀ b : Byte, (toStr b.toNat).length ≤ 3 := fun b => by
    rw [toStr,text,List.length_map]
    exact (Nat.length_toDigits_le_iff (by decide) (by decide)).mpr (by have := b.toNat_lt; omega)
  have ha := hlen x.a
  have hb := hlen x.b
  have hc := hlen x.c
  have hd := hlen x.d
  simp only [inet_ntoa,List.intercalate,List.intersperse,List.flatten_cons,List.flatten_nil,
    List.length_append,List.length_cons,List.length_nil]
  omega

theorem announceRound_heard (hpath : path.length < 65536) (l : List (in_addr × in_addr)) (sin_addr : in_addr) :
    (announceRound path multicast (l.map fun network => (inet_ntoa network.1,inet_ntoa network.2))
      sin_addr).1.map (fun sent => (sent.1,readAnnounce sent.2)) = l.flatMap (heard path multicast) := by
  induction l generalizing sin_addr with
  | nil => rfl
  | cons network l ih =>
    have hread := @readAnnounce_prepared XRE_ANNOUNCE_SERVERPORT (inet_ntoa network.1) path (by decide)
      (length_inet_ntoa _) hpath
    rw [List.map_cons,announceRound,List.flatMap_cons,← ih network.2,inet_aton_ntoa]
    cases multicast <;> simp [heard,hread]

theorem announceRounds_heard (hpath : path.length < 65536) (l : List (in_addr × in_addr)) (rounds : Nat)
    (sin_addr : in_addr) :
    (announceRounds path multicast (l.map fun network => (inet_ntoa network.1,inet_ntoa network.2)) rounds
      sin_addr).map (fun sent => (sent.1,readAnnounce sent.2)) =
      (List.replicate rounds (l.flatMap (heard path multicast))).flatten := by
  induction rounds generalizing sin_addr with
  | zero => rfl
  | succ rounds ih =>
    rw [announceRounds,List.map_append,announceRound_heard hpath,ih,List.replicate_succ,List.flatten_cons]

/-- Over a whole run every address of the kind is announced fifteen times on its network, and by multicast
where there is a socket for that; who reads the datagrams finds the port, the address and the path. The run
comes back with 0 when both calls for the socket succeed and there is such an address, it sends nothing when it
comes back with another result, and it does not come back when the list of interfaces has not all the pointers
that are followed. -/
theorem announces_heard (hpath : path.length < 65536) (multicast socket setsockopt : Bool)
    (interfaces : Interfaces) :
    (xre_announce path multicast socket setsockopt interfaces = none ↔
      (socket ∧ setsockopt) ∧ ¬ interfaces.Complete) ∧
    ∀ res sent, xre_announce path multicast socket setsockopt interfaces = some (res,sent) →
      (res = 0 ↔ (socket ∧ setsockopt) ∧ ∃ i ∈ interfaces.list, i.network.isSome) ∧
      sent.map (fun datagram => (datagram.1,readAnnounce datagram.2)) =
        if res = 0 then (List.replicate 15 ((interfaces.list.filterMap ifaddrs.network).flatMap
          (heard path multicast))).flatten else [] := by
  unfold xre_announce
  cases socket with
  | false =>
    refine ⟨iff_of_false (by simp) (by simp),fun res sent h => ?_⟩
    cases h
    exact ⟨by simp,rfl⟩
  | true =>
    cases setsockopt with
    | false =>
      refine ⟨iff_of_false (by simp) (by simp),fun res sent h => ?_⟩
      cases h
      exact ⟨by simp,rfl⟩
    | true =>
      by_cases hcomplete : interfaces.Complete
      · have hsome : (∃ i ∈ interfaces.list, i.network.isSome) ↔
            interfaces.list.filterMap ifaddrs.network ≠ [] := by
          simp [List.filterMap_eq_nil_iff,Option.isSome_iff_ne_none]
        rw [getIPAddressesWithBroadcasts_eq hcomplete,hsome]
        by_cases hnone : interfaces.list.filterMap ifaddrs.network = []
        · simp only [hnone,List.map_nil]
          refine ⟨iff_of_false (by simp) (by simp [hcomplete]),fun res sent h => ?_⟩
          cases h
          exact ⟨by simp,rfl⟩
        · have hmap : ¬ (interfaces.list.filterMap ifaddrs.network).map
              (fun network => (inet_ntoa network.1,inet_ntoa network.2)) = [] := by simpa using hnone
          refine ⟨iff_of_false (by simp [hmap]) (by simp [hcomplete]),fun res sent h => ?_⟩
          simp only [Bool.true_eq_false,if_false,Option.bind_eq_bind,Option.bind_some,if_neg hmap] at h
          cases h
          exact ⟨iff_of_true rfl ⟨⟨rfl,rfl⟩,hnone⟩,announceRounds_heard hpath _ _ _⟩
      · rw [getIPAddressesWithBroadcasts_none hcomplete]
        exact ⟨iff_of_true rfl ⟨⟨rfl,rfl⟩,hcomplete⟩,fun _ _ h => by cases h⟩

/-- The own address, another family and one network, with a socket for multicasts. -/
def homeInterfaces : Interfaces :=
  .listed [⟨some (.inet ⟨127,0,0,1⟩),none⟩,⟨some .other,none⟩,⟨some (.inet ⟨10,0,0,2⟩),some ⟨255,255,255,0⟩⟩]

theorem announces_heard_home :
    (xre_announce [47] true true true homeInterfaces = none ↔
      (true = true ∧ true = true) ∧ ¬ homeInterfaces.Complete) ∧
    ∀ res sent, xre_announce [47] true true true homeInterfaces = some (res,sent) →
      (res = 0 ↔ (true = true ∧ true = true) ∧ ∃ i ∈ homeInterfaces.list, i.network.isSome) ∧
      sent.map (fun datagram => (datagram.1,readAnnounce datagram.2)) =
        if res = 0 then (List.replicate 15 ((homeInterfaces.list.filterMap ifaddrs.network).flatMap
          (heard [47] true))).flatten else [] :=
  announces_heard (by decide) true true true homeInterfaces

end Run

end RootHelper
