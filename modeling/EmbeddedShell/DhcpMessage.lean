import EmbeddedShell.PbufBytes

/-!
# DHCP messages

The options of `dhcp.c` as they are written and read. `dhcp_parse_reply` walks over
the pbufs of a received message; a read outside a payload, which C leaves
undefined, is the outcome `wild`. `Fields` is the grammar of an options field:
padding, codes with a length and a value, and the end marker.
-/

namespace EmbeddedShell
namespace Dhcp

open CString PbufBytes

inductive MessageType
  | discover | offer | request | decline | ack | nak | release | inform
  deriving DecidableEq

def MessageType.code : MessageType → ℕ
  | .discover => 1
  | .offer => 2
  | .request => 3
  | .decline => 4
  | .ack => 5
  | .nak => 6
  | .release => 7
  | .inform => 8

def snameOfs : ℕ := 44
def snameLen : ℕ := 64
def fileOfs : ℕ := 108
def fileLen : ℕ := 128
def optionsOfs : ℕ := 240
def optionsLen : ℕ := 68

def beBytes (v : ℕ) : Bytes :=
  [UInt8.ofNat (v/2^24),UInt8.ofNat (v/2^16),UInt8.ofNat (v/2^8),UInt8.ofNat v]

def beValue (xs : Bytes) : ℕ := xs.foldl (fun v b => 256*v+b.toNat) 0

/-- The bytes of a 32 bit number as they lie in memory, and back. -/
def leBytes (v : ℕ) : Bytes := (beBytes v).reverse

def leValue (xs : Bytes) : ℕ := beValue xs.reverse

/-- `lwip_htonl` and `lwip_ntohl`. -/
def htonl (v : ℕ) : ℕ := leValue (beBytes v)

def dhcpOption (options : Bytes) (optionType optionLen : ℕ) : Bytes :=
  options ++ [UInt8.ofNat optionType,UInt8.ofNat optionLen]

def dhcpOptionByte (options : Bytes) (value : UInt8) : Bytes := options ++ [value]

def dhcpOptionShort (options : Bytes) (value : ℕ) : Bytes :=
  options ++ [UInt8.ofNat (value/2^8),UInt8.ofNat value]

def dhcpOptionLong (options : Bytes) (value : ℕ) : Bytes := options ++ beBytes value

/-- `dhcp_option_hostname`; the name is cut to the room that is left. -/
def dhcpOptionHostname (options : Bytes) (hostname : Option Bytes) : Bytes :=
  match hostname with
  | none => options
  | some name =>
    if (cstr name).length = 0 then options
    else
      let len := min (cstr name).length (optionsLen-options.length-3)
      dhcpOption options 12 len ++ (cstr name).take len

/-- `dhcp_option_trailer`: the end marker, and zeros up to the size of the array. -/
def dhcpOptionTrailer (options : Bytes) : Bytes :=
  options ++ [255] ++ List.replicate (optionsLen-(options.length+1)) 0

inductive OptionIdx
  | overload | msgType | serverId | leaseTime | t1 | t2 | subnetMask | router
  deriving DecidableEq

/-- `dhcp_rx_options_given` and `dhcp_rx_options_val`. -/
abbrev RxOptions := OptionIdx → Option ℕ

inductive ParseError
  | buf | val | wild | endless
  deriving DecidableEq

/-- The switch over the option code: how many bytes are decoded, and where to.
There is no decoding for a length that the option must not have. -/
def decode (optionsIdx op len : ℕ) : Option (ℕ × Option OptionIdx) :=
  match op with
  | 1 => if len = 4 then some (4,some .subnetMask) else none
  | 3 => if 4 ≤ len then some (4,some .router) else none
  | 51 => if len = 4 then some (4,some .leaseTime) else none
  | 52 => if len = 1 ∧ optionsIdx = optionsOfs then some (1,some .overload) else none
  | 53 => if len = 1 then some (1,some .msgType) else none
  | 54 => if len = 4 then some (4,some .serverId) else none
  | 58 => if len = 4 then some (4,some .t1) else none
  | 59 => if len = 4 then some (4,some .t2) else none
  | _ => some (0,none)

structure Cursor where
  q : Chain
  offset : ℕ
  offsetMax : ℕ
  opts : RxOptions

/-- The length byte may be the first byte of the next pbuf. -/
def lenByte (s : Seg) (rest : Chain) (offset : ℕ) : Option UInt8 :=
  if offset+1 < s.len then s.payload[offset+1]?
  else match rest with
    | [] => some 0
    | next::_ => next.payload[0]?

def storeValue (q : Chain) (valOffset decodeLen : ℕ) (idx : Option OptionIdx) (opts : RxOptions) :
    Option RxOptions :=
  match idx with
  | none => some opts
  | some i =>
    if (opts i).isSome then some opts
    else
      let value := pbufCopyPartial q (min decodeLen 4) valOffset
      if value.length = min decodeLen 4 then some (Function.update opts i (some (beValue value)))
      else none

/-- The end of a round: on to the next pbuf if the offset lies behind this one. -/
def advance (s : Seg) (rest : Chain) (offset offsetMax : ℕ) (opts : RxOptions) :
    Except ParseError (Option Cursor) :=
  if s.len ≤ offset then
    let offset := offset-s.len
    let offsetMax := wrap 16 ((offsetMax : ℤ)-s.len)
    if offset < offsetMax then
      if rest = [] then .error .val else .ok (some ⟨rest,offset,offsetMax,opts⟩)
    else .error .buf
  else .ok (some ⟨s::rest,offset,offsetMax,opts⟩)

/-- One round of the loop over the options; `none` leaves the loop. -/
def parseStep (optionsIdx : ℕ) (s : Seg) (rest : Chain) (offset offsetMax : ℕ) (opts : RxOptions) :
    Except ParseError (Option Cursor) :=
  if offsetMax ≤ offset then .ok none
  else
    match s.payload[offset]? with
    | none => .error .wild
    | some op =>
      if op = 255 then .ok none
      else
        let valOffset := wrap 16 ((offset+2 : ℕ) : ℤ)
        if valOffset < offset then .error .buf
        else
          match lenByte s rest offset with
          | none => .error .wild
          | some len =>
            if op = 0 then advance s rest (offset+1) offsetMax opts
            else
              match decode optionsIdx op.toNat len.toNat with
              | none => .error .val
              | some (decodeLen,idx) =>
                if 0xffff < offset+len.toNat+2 then .error .buf
                else
                  match storeValue (s::rest) valOffset decodeLen idx opts with
                  | none => .error .buf
                  | some opts => advance s rest (offset+len.toNat+2) offsetMax opts

def parseLoop (optionsIdx : ℕ) : ℕ → Cursor → Except ParseError RxOptions
  | 0, _ => .error .endless
  | fuel+1, c =>
    match c.q with
    | [] => .ok c.opts
    | s::rest =>
      match parseStep optionsIdx s rest c.offset c.offsetMax c.opts with
      | .error e => .error e
      | .ok none => .ok c.opts
      | .ok (some c) => parseLoop optionsIdx fuel c

/-- What follows the label `again`: the options in the bytes from `idx` to `idxMax`. -/
def parseField (p : Chain) (idx idxMax : ℕ) (opts : RxOptions) : Except ParseError RxOptions :=
  let q := pbufSkip p idx
  if q.1 = [] then .error .buf
  else parseLoop q.2 (totLen p+1) ⟨q.1,q.2,wrap 16 ((idxMax : ℤ)-(idx-q.2 : ℕ)),opts⟩

/-- The options in a field that the option `overload` has opened to them. -/
def parseOverloaded (p : Chain) (overloaded : Bool) (idx idxMax : ℕ) (opts : RxOptions) :
    Except ParseError RxOptions :=
  if overloaded then parseField p idx idxMax opts else .ok opts

def parseReply : Chain → Except ParseError RxOptions
  | [] => .error .buf
  | s::rest =>
    if s.len < snameOfs then .error .buf
    else
      match parseField (s::rest) optionsOfs (totLen (s::rest)) (fun _ => none) with
      | .error e => .error e
      | .ok opts =>
        let overload := opts .overload
        match parseOverloaded (s::rest) (overload = some 1 ∨ overload = some 3) fileOfs (fileOfs+fileLen)
            (Function.update opts .overload none) with
        | .error e => .error e
        | .ok opts =>
          parseOverloaded (s::rest) (overload = some 2 ∨ overload = some 3) snameOfs (snameOfs+snameLen) opts

/-- `Fields xs os rest`: the options `os` up to the end marker, and what follows it. -/
inductive Fields : Bytes → List (UInt8 × Bytes) → Bytes → Prop
  | fin (rest : Bytes) : Fields (255::rest) [] rest
  | pad {xs rest : Bytes} {os : List (UInt8 × Bytes)} (h : Fields xs os rest) : Fields (0::xs) os rest
  | option {xs rest : Bytes} {os : List (UInt8 × Bytes)} {op len : UInt8} {value : Bytes} (hp : op ≠ 0)
      (he : op ≠ 255) (hl : value.length = len.toNat) (h : Fields xs os rest) :
      Fields (op::len::(value++xs)) ((op,value)::os) rest

def Legal (optionsIdx : ℕ) (o : UInt8 × Bytes) : Prop :=
  decode optionsIdx o.1.toNat o.2.length ≠ none

/-- What an option adds to those read before it: the first of a kind counts. -/
def absorb (optionsIdx : ℕ) (opts : RxOptions) (o : UInt8 × Bytes) : RxOptions :=
  match decode optionsIdx o.1.toNat o.2.length with
  | some (n,some i) => if (opts i).isSome then opts else Function.update opts i (some (beValue (o.2.take n)))
  | _ => opts

theorem decode_le {optionsIdx op len n : ℕ} {i : OptionIdx}
    (h : decode optionsIdx op len = some (n,some i)) : n ≤ len ∧ n ≤ 4 := by
  unfold decode at h
  split at h
  all_goals first | (split at h <;> simp at h <;> omega) | simp at h

theorem storeValue_fits {q : Chain} {valOffset n : ℕ} {idx : Option OptionIdx} (opts : RxOptions)
    {value xs : Bytes} {optionsIdx op : ℕ} (hd : (bytes q).drop valOffset = value ++ xs)
    (h : decode optionsIdx op value.length = some (n,idx)) :
    storeValue q valOffset n idx opts = some (match idx with
      | some i => if (opts i).isSome then opts else Function.update opts i (some (beValue (value.take n)))
      | none => opts) := by
  cases idx with
  | none => rfl
  | some i =>
    obtain ⟨hn,h4⟩ := decode_le h
    have hcopy : pbufCopyPartial q (min n 4) valOffset = value.take n := by
      rw [copyPartial_eq,hd,Nat.min_eq_left h4,List.take_append_of_le_length hn]
    simp only [storeValue,hcopy,List.length_take]
    by_cases hg : (opts i).isSome
    · rw [if_pos hg,if_pos hg]
    · rw [if_neg hg,if_neg hg,if_pos (by omega)]

theorem getElem?_of_drop {xs ys : Bytes} {n : ℕ} {b : UInt8} (h : xs.drop n = b::ys) :
    xs[n]? = some b ∧ xs.drop (n+1) = ys ∧ n+ys.length+1 = xs.length := by
  have h0 := congrArg (fun l : Bytes => l[0]?) h
  have hl := congrArg List.length h
  simp only [List.length_drop,List.length_cons] at hl
  refine ⟨by simpa using h0,?_,by omega⟩
  rw [← List.drop_drop,h]
  rfl

theorem advance_inside {s : Seg} {rest : Chain} {offset offsetMax : ℕ} {opts : RxOptions}
    (h : offset < s.len) : advance s rest offset offsetMax opts = .ok (some ⟨s::rest,offset,offsetMax,opts⟩) := by
  rw [advance,if_neg (by omega)]

theorem parseLoop_next {optionsIdx fuel offset offsetMax : ℕ} {s : Seg} {rest : Chain} {opts : RxOptions}
    {c : Cursor} (h : parseStep optionsIdx s rest offset offsetMax opts = .ok (some c)) :
    parseLoop optionsIdx (fuel+1) ⟨s::rest,offset,offsetMax,opts⟩ = parseLoop optionsIdx fuel c := by
  rw [parseLoop]
  simp only [h]

theorem parseStep_pad {optionsIdx : ℕ} {s : Seg} (hs : s.len < 2^16) {ys : Bytes} {offset offsetMax : ℕ}
    (opts : RxOptions) (hd : s.payload.drop offset = 0::ys) (hne : ys ≠ []) (hm : offset < offsetMax) :
    parseStep optionsIdx s [] offset offsetMax opts = .ok (some ⟨[s],offset+1,offsetMax,opts⟩) := by
  obtain ⟨hget,hnext,hlen⟩ := getElem?_of_drop hd
  have hpos := List.length_pos_iff.mpr hne
  have hpl : s.payload.length = s.len := rfl
  have hw : ¬ wrap 16 ((offset+2 : ℕ) : ℤ) < offset := by
    rw [wrap_natCast,Nat.mod_eq_of_lt (by omega)]
    omega
  have hb : lenByte s [] offset = s.payload[offset+1]? := by
    rw [lenByte,if_pos (by omega)]
  obtain ⟨b,hb'⟩ : ∃ b, s.payload[offset+1]? = some b :=
    ⟨s.payload[offset+1],List.getElem?_eq_getElem (by omega)⟩
  rw [parseStep,if_neg (by omega)]
  simp only [hget,hb,hb',if_neg hw]
  rw [if_neg (by decide)]
  simp only [if_true]
  exact advance_inside (by omega)

theorem parseStep_option {optionsIdx : ℕ} {s : Seg} (hs : s.len < 2^16) {xs value : Bytes} {op len : UInt8}
    {offset offsetMax : ℕ} (opts : RxOptions) (hp : op ≠ 0) (he : op ≠ 255)
    (hl : value.length = len.toNat) (hd : s.payload.drop offset = op::len::(value++xs)) (hne : xs ≠ [])
    (hm : offset < offsetMax) (hlegal : Legal optionsIdx (op,value)) :
    parseStep optionsIdx s [] offset offsetMax opts =
      .ok (some ⟨[s],offset+value.length+2,offsetMax,absorb optionsIdx opts (op,value)⟩) := by
  obtain ⟨hget,hnext,hlen⟩ := getElem?_of_drop hd
  obtain ⟨hget',hnext',-⟩ := getElem?_of_drop hnext
  simp only [List.length_cons,List.length_append] at hlen
  have hpos := List.length_pos_iff.mpr hne
  have hpl : s.payload.length = s.len := rfl
  have hw : wrap 16 ((offset+2 : ℕ) : ℤ) = offset+2 := by
    rw [wrap_natCast,Nat.mod_eq_of_lt (by omega)]
  have hb : lenByte s [] offset = some len := by
    rw [lenByte,if_pos (by omega),hget']
  rw [parseStep,if_neg (by omega)]
  simp only [hget,hb,hw,if_neg he,if_neg hp,if_neg (show ¬ offset+2 < offset by omega),← hl]
  obtain ⟨⟨n,idx⟩,hdec⟩ := Option.ne_none_iff_exists'.mp hlegal
  have hvalue : (bytes [s]).drop (offset+2) = value ++ xs := by simpa [bytes] using hnext'
  have hstore := storeValue_fits opts hvalue hdec
  simp only [hdec,hstore,if_neg (show ¬ 0xffff < offset+value.length+2 by omega)]
  rw [advance_inside (by omega)]
  cases idx with
  | none => simp [absorb,hdec]
  | some i => simp [absorb,hdec]

/-- What one round has read that ends inside the packet. -/
inductive Round (optionsIdx : ℕ) (payload : Bytes) (offset : ℕ) (opts : RxOptions) : ℕ → RxOptions → Prop
  | pad {ys : Bytes} (hd : payload.drop offset = 0::ys) : Round optionsIdx payload offset opts (offset+1) opts
  | option {op len : UInt8} {value xs : Bytes} (hp : op ≠ 0) (he : op ≠ 255) (hl : value.length = len.toNat)
      (hd : payload.drop offset = op::len::(value++xs)) (hlegal : Legal optionsIdx (op,value)) :
      Round optionsIdx payload offset opts (offset+value.length+2) (absorb optionsIdx opts (op,value))

theorem advance_last {s : Seg} {offset offsetMax : ℕ} {opts : RxOptions} (h : s.len ≤ offset) :
    advance s [] offset offsetMax opts = .error .val ∨ advance s [] offset offsetMax opts = .error .buf := by
  rw [advance,if_pos h]
  by_cases hlt : offset-s.len < wrap 16 ((offsetMax : ℤ)-s.len)
  · exact Or.inl (by simp [hlt])
  · exact Or.inr (by simp [hlt])

/-- A round in a packet of one pbuf reads inside it. It fails, meets the end, or
leaves the loop further on in the same pbuf. -/
theorem parseStep_cases (optionsIdx : ℕ) {s : Seg} {offset : ℕ} (offsetMax : ℕ) (opts : RxOptions)
    (ho : offset < s.len) :
    parseStep optionsIdx s [] offset offsetMax opts = .error .val ∨
    parseStep optionsIdx s [] offset offsetMax opts = .error .buf ∨
    (parseStep optionsIdx s [] offset offsetMax opts = .ok none ∧
      (offsetMax ≤ offset ∨ s.payload[offset]? = some 255)) ∨
    ∃ n opts', parseStep optionsIdx s [] offset offsetMax opts = .ok (some ⟨[s],n,offsetMax,opts'⟩) ∧
      offset < n ∧ n < s.len ∧ Round optionsIdx s.payload offset opts n opts' := by
  have hpl : s.payload.length = s.len := rfl
  have hcons : s.payload.drop offset = s.payload[offset]::s.payload.drop (offset+1) :=
    List.drop_eq_getElem_cons ho
  obtain ⟨hget,-,-⟩ := getElem?_of_drop hcons
  generalize s.payload[offset] = op at hcons hget
  rw [parseStep]
  by_cases hm : offsetMax ≤ offset
  · rw [if_pos hm]
    exact Or.inr (Or.inr (Or.inl ⟨rfl,Or.inl hm⟩))
  simp only [if_neg hm,hget]
  by_cases he : op = 255
  · rw [if_pos he,he]
    exact Or.inr (Or.inr (Or.inl ⟨rfl,Or.inr rfl⟩))
  rw [if_neg he]
  by_cases hw : wrap 16 ((offset+2 : ℕ) : ℤ) < offset
  · rw [if_pos hw]
    exact Or.inr (Or.inl rfl)
  rw [if_neg hw]
  obtain ⟨len,hlen,hnext⟩ : ∃ len, lenByte s [] offset = some len ∧
      (offset+1 < s.len → s.payload.drop (offset+1) = len::s.payload.drop (offset+2)) := by
    by_cases hin : offset+1 < s.len
    · refine ⟨s.payload[offset+1],?_,fun _ => List.drop_eq_getElem_cons hin⟩
      rw [lenByte,if_pos hin]
      exact List.getElem?_eq_getElem hin
    · exact ⟨0,by rw [lenByte,if_neg hin],fun h => absurd h hin⟩
  simp only [hlen]
  by_cases hp : op = 0
  · rw [if_pos hp]
    by_cases hin : offset+1 < s.len
    · rw [advance_inside hin]
      exact Or.inr (Or.inr (Or.inr ⟨offset+1,opts,rfl,by omega,hin,.pad (hp ▸ hcons)⟩))
    · exact (advance_last (by omega)).elim Or.inl fun h => Or.inr (Or.inl h)
  rw [if_neg hp]
  cases hdec : decode optionsIdx op.toNat len.toNat with
  | none => exact Or.inl rfl
  | some d =>
    obtain ⟨n,idx⟩ := d
    by_cases hbig : 0xffff < offset+len.toNat+2
    · simp only [if_pos hbig]
      exact Or.inr (Or.inl trivial)
    simp only [if_neg hbig]
    cases hst : storeValue [s] (wrap 16 ((offset+2 : ℕ) : ℤ)) n idx opts with
    | none => exact Or.inr (Or.inl rfl)
    | some opts' =>
      simp only []
      by_cases hin : offset+len.toNat+2 < s.len
      · have hvl : ((s.payload.drop (offset+2)).take len.toNat).length = len.toNat := by
          rw [List.length_take,List.length_drop]
          omega
        have hvalue : (s.payload.drop (offset+2)).take len.toNat ++ s.payload.drop (offset+2+len.toNat) =
            s.payload.drop (offset+2) := by
          have h := List.take_append_drop len.toNat (s.payload.drop (offset+2))
          rwa [List.drop_drop] at h
        have hsplit : s.payload.drop offset = op::len::((s.payload.drop (offset+2)).take len.toNat ++
            s.payload.drop (offset+2+len.toNat)) := by
          rw [hcons,hnext (by omega),hvalue]
        have hw2 : wrap 16 ((offset+2 : ℕ) : ℤ) = offset+2 := by
          rw [wrap_natCast,Nat.mod_eq_of_lt (by omega)]
        have hdec' := hdec
        rw [← hvl] at hdec'
        have hbytes : (bytes [s]).drop (offset+2) = (s.payload.drop (offset+2)).take len.toNat ++
            s.payload.drop (offset+2+len.toNat) := by
          rw [hvalue]
          simp [bytes]
        have hstore := storeValue_fits opts hbytes hdec'
        rw [hw2,hstore] at hst
        have habs : absorb optionsIdx opts (op,(s.payload.drop (offset+2)).take len.toNat) = opts' := by
          rw [← Option.some.inj hst]
          simp only [absorb,hdec']
          cases idx with
          | none => rfl
          | some i => rfl
        have hround : Round optionsIdx s.payload offset opts _ _ :=
          .option hp he hvl hsplit (by rw [Legal,hdec']; simp)
        rw [habs,hvl] at hround
        rw [advance_inside hin]
        exact Or.inr (Or.inr (Or.inr ⟨_,_,rfl,by omega,hin,hround⟩))
      · exact (advance_last (by omega)).elim Or.inl fun h => Or.inr (Or.inl h)

/-- The walk over a packet of one pbuf ends, and never reads outside it. -/
theorem parseLoop_inside {optionsIdx : ℕ} {s : Seg} {fuel offset offsetMax : ℕ} {opts : RxOptions}
    (ho : offset < s.len) (hf : s.len < fuel+offset) :
    parseLoop optionsIdx fuel ⟨[s],offset,offsetMax,opts⟩ ≠ .error .wild ∧
      parseLoop optionsIdx fuel ⟨[s],offset,offsetMax,opts⟩ ≠ .error .endless := by
  induction fuel generalizing offset opts with
  | zero => omega
  | succ fuel ih =>
    rcases parseStep_cases optionsIdx offsetMax opts ho with he | he | ⟨he,-⟩ | ⟨n,opts',he,hlt,hn,-⟩
    · simp [parseLoop,he]
    · simp [parseLoop,he]
    · simp [parseLoop,he]
    · rw [parseLoop_next he]
      exact ih hn (by omega)

/-- Every pbuf but the last is so long that an option which starts in the fields
`sname` or `file`, or anywhere in the pbuf before, ends in it. -/
def Wide : Chain → Prop
  | [] => False
  | [s] => 0 < s.len
  | s::next::rest => fileOfs+fileLen+257 ≤ s.len ∧ Wide (next::rest)

/-- The chain holds the bytes of the packet from `k` on. -/
structure From (xs : Bytes) (k : ℕ) (q : Chain) : Prop where
  wide : Wide q
  drop : xs.drop k = bytes q
  le : k ≤ xs.length

theorem From.length {xs : Bytes} {k : ℕ} {q : Chain} (h : From xs k q) :
    k+(bytes q).length = xs.length := by
  have hl := congrArg List.length h.drop
  have hle := h.le
  rw [List.length_drop] at hl
  omega

theorem From.getElem? {xs : Bytes} {k offset : ℕ} {s : Seg} {rest : Chain} (h : From xs k (s::rest))
    (ho : offset < s.len) : s.payload[offset]? = xs[k+offset]? := by
  rw [← List.getElem?_drop,h.drop,bytes_cons,List.getElem?_append_left ho]

theorem From.next {xs : Bytes} {k : ℕ} {s next : Seg} {rest : Chain} (h : From xs k (s::next::rest)) :
    From xs (k+s.len) (next::rest) := by
  have hl := h.length
  rw [length_bytes_cons] at hl
  refine ⟨h.wide.2,?_,by omega⟩
  rw [← List.drop_drop,h.drop,bytes_cons]
  exact List.drop_left

theorem Wide.head_pos {s : Seg} {rest : Chain} (h : Wide (s::rest)) : 0 < s.len := by
  cases rest with
  | nil => exact h
  | cons next rest =>
    have := h.1
    omega

theorem advance_from {xs : Bytes} {k : ℕ} {s : Seg} {rest : Chain} (h : From xs k (s::rest)) {offset : ℕ}
    (opts : RxOptions) (ho : offset ≤ s.len+256) (hx : xs.length < 2^16) :
    (xs.length ≤ k+offset → advance s rest offset (bytes (s::rest)).length opts = .error .buf) ∧
    (k+offset < xs.length → ∃ s' rest' k' o', advance s rest offset (bytes (s::rest)).length opts =
      .ok (some ⟨s'::rest',o',(bytes (s'::rest')).length,opts⟩) ∧ From xs k' (s'::rest') ∧
      k'+o' = k+offset ∧ o' < s'.len) := by
  have hl := h.length
  rw [length_bytes_cons] at hl ⊢
  by_cases hin : offset < s.len
  · refine ⟨fun _ => by omega,fun _ => ⟨s,rest,k,offset,?_,h,rfl,hin⟩⟩
    rw [advance_inside hin,length_bytes_cons]
  have hwrap : wrap 16 (((s.len+(bytes rest).length : ℕ) : ℤ)-s.len) = (bytes rest).length := by
    rw [wrap_sub (by omega) (by omega)]
    omega
  rw [advance,if_pos (by omega)]
  simp only [hwrap]
  constructor
  · intro hend
    rw [if_neg (by omega)]
  · intro hmore
    rw [if_pos (by omega)]
    cases rest with
    | nil =>
      rw [bytes_nil,List.length_nil] at hl
      omega
    | cons next rest =>
      have hnext := h.next
      refine ⟨next,rest,k+s.len,offset-s.len,by simp,hnext,by omega,?_⟩
      cases rest with
      | nil =>
        rw [length_bytes_cons,bytes_nil,List.length_nil] at hl
        omega
      | cons last rest =>
        have hwide : fileOfs+fileLen+257 ≤ next.len := hnext.wide.1
        simp only [fileOfs,fileLen] at hwide
        omega

/-- Two rounds with the same outcome, up to a relation between the cursors they leave. -/
inductive Agree (R : Cursor → Cursor → Prop) :
    Except ParseError (Option Cursor) → Except ParseError (Option Cursor) → Prop
  | error (e : ParseError) : Agree R (.error e) (.error e)
  | done : Agree R (.ok none) (.ok none)
  | next {c d : Cursor} (h : R c d) : Agree R (.ok (some c)) (.ok (some d))

theorem parseLoop_agree {optionsIdx : ℕ} {R : Cursor → Cursor → Prop}
    (hR : ∀ c d, R c d → c.opts = d.opts ∧ ∃ s rest s' rest', c.q = s::rest ∧ d.q = s'::rest' ∧
      Agree R (parseStep optionsIdx s rest c.offset c.offsetMax c.opts)
        (parseStep optionsIdx s' rest' d.offset d.offsetMax d.opts))
    (fuel : ℕ) {c d : Cursor} (h : R c d) : parseLoop optionsIdx fuel c = parseLoop optionsIdx fuel d := by
  induction fuel generalizing c d with
  | zero => rfl
  | succ fuel ih =>
    obtain ⟨ho,s,rest,s',rest',hc,hd,hagree⟩ := hR c d h
    rw [parseLoop,parseLoop]
    simp only [hc,hd]
    generalize parseStep optionsIdx s rest c.offset c.offsetMax c.opts = a at hagree
    generalize parseStep optionsIdx s' rest' d.offset d.offsetMax d.opts = b at hagree
    cases hagree with
    | error e => rfl
    | done => simp only [ho]
    | next hnext => exact ih hnext

/-- A cursor in the chain and the same place in the packet in one pbuf, in the options field. -/
inductive SamePlace (xs : Bytes) (n : ℕ) : Cursor → Cursor → Prop
  | intro {k offset : ℕ} {s : Seg} {rest : Chain} {opts : RxOptions} (h : From xs k (s::rest))
      (ho : offset < s.len) : SamePlace xs n ⟨s::rest,offset,(bytes (s::rest)).length,opts⟩
        ⟨[⟨xs,n⟩],k+offset,xs.length,opts⟩

theorem advance_agree {xs : Bytes} {n k : ℕ} {s : Seg} {rest : Chain} (h : From xs k (s::rest)) {offset : ℕ}
    (opts : RxOptions) (ho : offset ≤ s.len+256) (hx : xs.length < 2^16) :
    Agree (SamePlace xs n) (advance s rest offset (bytes (s::rest)).length opts)
      (advance ⟨xs,n⟩ [] (k+offset) xs.length opts) := by
  obtain ⟨hend,hmore⟩ := advance_from h opts ho hx
  by_cases hlt : k+offset < xs.length
  · obtain ⟨s',rest',k',o',he,hfrom,hk,ho'⟩ := hmore hlt
    rw [he,advance_inside (show k+offset < Seg.len ⟨xs,n⟩ from hlt),← hk]
    exact .next (.intro hfrom ho')
  · have hzero : wrap 16 ((xs.length : ℤ)-xs.length) = 0 := by
      rw [Int.sub_self]
      rfl
    rw [hend (by omega),advance,if_pos (show Seg.len ⟨xs,n⟩ ≤ k+offset by simpa [Seg.len] using hlt)]
    simp only [Seg.len,hzero,Nat.not_lt_zero,if_false]
    exact .error _

theorem storeValue_from {xs : Bytes} {n k : ℕ} {q : Chain} (h : From xs k q) (offset decodeLen : ℕ)
    (idx : Option OptionIdx) (opts : RxOptions) :
    storeValue q offset decodeLen idx opts = storeValue [⟨xs,n⟩] (k+offset) decodeLen idx opts := by
  have hd : (bytes [⟨xs,n⟩]).drop (k+offset) = (bytes q).drop offset := by
    rw [← h.drop,List.drop_drop]
    simp [bytes]
  simp only [storeValue,copyPartial_eq,hd]

theorem lenByte_from {xs : Bytes} {n k offset : ℕ} {s : Seg} {rest : Chain} (h : From xs k (s::rest))
    (ho : offset < s.len) : lenByte s rest offset = lenByte ⟨xs,n⟩ [] (k+offset) := by
  have hl := h.length
  rw [length_bytes_cons] at hl
  have hwl : Seg.len ⟨xs,n⟩ = xs.length := rfl
  unfold lenByte
  rw [hwl]
  by_cases hin : offset+1 < s.len
  · rw [if_pos hin,if_pos (show k+offset+1 < xs.length by omega),h.getElem? hin,Nat.add_assoc]
  rw [if_neg hin]
  cases rest with
  | nil =>
    rw [bytes_nil,List.length_nil] at hl
    rw [if_neg (show ¬ k+offset+1 < xs.length by omega)]
  | cons next rest =>
    have hnext := h.next
    have hpos := hnext.wide.head_pos
    rw [length_bytes_cons] at hl
    rw [if_pos (show k+offset+1 < xs.length by omega)]
    simp only []
    rw [hnext.getElem? hpos,show k+s.len+0 = k+offset+1 by omega]

theorem parseStep_agree {optionsIdx : ℕ} {xs : Bytes} {n k offset : ℕ} {s : Seg} {rest : Chain}
    (h : From xs k (s::rest)) (ho : offset < s.len) (hx : xs.length ≤ 65507) (opts : RxOptions) :
    Agree (SamePlace xs n) (parseStep optionsIdx s rest offset (bytes (s::rest)).length opts)
      (parseStep optionsIdx ⟨xs,n⟩ [] (k+offset) xs.length opts) := by
  have hl := h.length
  rw [length_bytes_cons] at hl
  have hw : ∀ i, i ≤ 65507 → wrap 16 ((i+2 : ℕ) : ℤ) = i+2 := by
    intro i hi
    rw [wrap_natCast,Nat.mod_eq_of_lt (by omega)]
  rw [parseStep,parseStep,if_neg (by rw [length_bytes_cons]; omega),if_neg (by omega)]
  simp only [h.getElem? ho]
  cases hget : xs[k+offset]? with
  | none => exact .error _
  | some op =>
    simp only [hw offset (by omega),hw (k+offset) (by omega),lenByte_from (n:=n) h ho,
      if_neg (show ¬ offset+2 < offset by omega),if_neg (show ¬ k+offset+2 < k+offset by omega)]
    by_cases he : op = 255
    · rw [if_pos he,if_pos he]
      exact .done
    rw [if_neg he,if_neg he]
    cases hlb : lenByte ⟨xs,n⟩ [] (k+offset) with
    | none => exact .error _
    | some len =>
      simp only []
      by_cases hp : op = 0
      · rw [if_pos hp,if_pos hp,Nat.add_assoc]
        exact advance_agree h opts (by omega) (by omega)
      rw [if_neg hp,if_neg hp]
      cases hdec : decode optionsIdx op.toNat len.toNat with
      | none => exact .error _
      | some d =>
        obtain ⟨decodeLen,idx⟩ := d
        have hlen := len.toNat_lt
        simp only [Nat.add_assoc,← storeValue_from (n:=n) h]
        have hstay := fun opts' => advance_agree (n:=n) h opts' (show offset+(len.toNat+2) ≤ s.len+256 by omega)
          (by omega)
        by_cases hbig : 0xffff < k+(offset+(len.toNat+2))
        · rw [if_pos hbig]
          by_cases hbig' : 0xffff < offset+(len.toNat+2)
          · rw [if_pos hbig']
            exact .error _
          rw [if_neg hbig']
          cases hst : storeValue (s::rest) (offset+2) decodeLen idx opts with
          | none => exact .error _
          | some opts' =>
            simp only []
            rw [(advance_from h opts' (show offset+(len.toNat+2) ≤ s.len+256 by omega)
              (by omega)).1 (by omega)]
            exact .error _
        · rw [if_neg hbig,if_neg (show ¬ 0xffff < offset+(len.toNat+2) by omega)]
          cases hst : storeValue (s::rest) (offset+2) decodeLen idx opts with
          | none => exact .error _
          | some opts' => exact hstay opts'

theorem parseStep_field {optionsIdx : ℕ} {xs : Bytes} {n offset offsetMax : ℕ} {s : Seg} {rest : Chain}
    (h : From xs 0 (s::rest)) (hs : fileOfs+fileLen+257 ≤ s.len) (hm : offsetMax ≤ fileOfs+fileLen)
    (opts : RxOptions) :
    Agree (fun c d => ∃ o opts, c = ⟨s::rest,o,offsetMax,opts⟩ ∧ d = ⟨[⟨xs,n⟩],o,offsetMax,opts⟩)
      (parseStep optionsIdx s rest offset offsetMax opts)
      (parseStep optionsIdx ⟨xs,n⟩ [] offset offsetMax opts) := by
  have hl := h.length
  rw [length_bytes_cons] at hl
  rw [parseStep,parseStep]
  by_cases hend : offsetMax ≤ offset
  · rw [if_pos hend,if_pos hend]
    exact .done
  simp only [fileOfs,fileLen] at hs hm
  have hstay : ∀ o opts, o < s.len → Agree (fun c d => ∃ o opts, c = ⟨s::rest,o,offsetMax,opts⟩ ∧
      d = ⟨[⟨xs,n⟩],o,offsetMax,opts⟩) (advance s rest o offsetMax opts)
        (advance ⟨xs,n⟩ [] o offsetMax opts) := by
    intro o opts ho
    rw [advance_inside ho,advance_inside (show o < xs.length by omega)]
    exact .next ⟨o,opts,rfl,rfl⟩
  have hget := h.getElem? (show offset < s.len by omega)
  have hlb := lenByte_from (n:=n) h (show offset < s.len by omega)
  have hst := fun o dl idx opts => storeValue_from (n:=n) h o dl idx opts
  simp only [Nat.zero_add] at hget hlb hst
  simp only [if_neg hend,hget,hlb,hst]
  cases hop : xs[offset]? with
  | none => exact .error _
  | some op =>
    simp only []
    by_cases he : op = 255
    · rw [if_pos he,if_pos he]
      exact .done
    rw [if_neg he,if_neg he]
    by_cases hw : wrap 16 ((offset+2 : ℕ) : ℤ) < offset
    · rw [if_pos hw,if_pos hw]
      exact .error _
    rw [if_neg hw,if_neg hw]
    cases lenByte ⟨xs,n⟩ [] offset with
    | none => exact .error _
    | some len =>
      have hlen := len.toNat_lt
      simp only []
      by_cases hp : op = 0
      · rw [if_pos hp,if_pos hp]
        exact hstay _ _ (by omega)
      rw [if_neg hp,if_neg hp]
      cases decode optionsIdx op.toNat len.toNat with
      | none => exact .error _
      | some d =>
        obtain ⟨decodeLen,idx⟩ := d
        simp only [if_neg (show ¬ 0xffff < offset+len.toNat+2 by omega)]
        cases storeValue [⟨xs,n⟩] (wrap 16 ((offset+2 : ℕ) : ℤ)) decodeLen idx opts with
        | none => exact .error _
        | some opts' => exact hstay _ _ (by omega)

theorem packet_from {p : Chain} {xs : Bytes} (hp : Packet p xs) (hw : Wide p) : From xs 0 p :=
  ⟨hw,hp.carries.symm,Nat.zero_le _⟩

theorem packet_single {s : Seg} {xs : Bytes} (hp : Packet [s] xs) : s = ⟨xs,xs.length⟩ := by
  have hb : s.payload = xs := by simpa using hp.carries
  have ht : s.totLen = xs.length := hp.totLen_eq
  cases s
  simp_all

theorem skip_inside {s : Seg} {rest : Chain} {n : ℕ} (h : n < s.len) : pbufSkip (s::rest) n = (s::rest,n) := by
  rw [pbufSkip,if_neg (by omega)]

theorem samePlace_round {optionsIdx n : ℕ} {xs : Bytes} (hx : xs.length ≤ 65507) (c d : Cursor)
    (h : SamePlace xs n c d) : c.opts = d.opts ∧ ∃ s rest s' rest', c.q = s::rest ∧ d.q = s'::rest' ∧
      Agree (SamePlace xs n) (parseStep optionsIdx s rest c.offset c.offsetMax c.opts)
        (parseStep optionsIdx s' rest' d.offset d.offsetMax d.opts) := by
  cases h with
  | @intro k offset s rest opts h ho => exact ⟨rfl,s,rest,_,_,rfl,rfl,parseStep_agree h ho hx opts⟩

theorem parseField_whole {s : Seg} {rest : Chain} {xs : Bytes} (hp : Packet (s::rest) xs)
    (hf : From xs 0 (s::rest)) (hs : fileOfs+fileLen+257 ≤ s.len) (hx : xs.length ≤ 65507)
    {idx idxMax : ℕ} (hidx : idx ≤ optionsOfs) (hmax : idxMax = xs.length ∨ idxMax ≤ fileOfs+fileLen)
    (opts : RxOptions) :
    parseField (s::rest) idx idxMax opts = parseField [⟨xs,xs.length⟩] idx idxMax opts := by
  have hl := hf.length
  rw [length_bytes_cons] at hl
  simp only [fileOfs,fileLen,optionsOfs] at hs hidx hmax
  have hwrap : wrap 16 ((idxMax : ℤ)-(idx-idx : ℕ)) = idxMax := by
    rw [Nat.sub_self,wrap_sub (Nat.zero_le _) (by omega),Nat.sub_zero]
  have ht : totLen [⟨xs,xs.length⟩] = totLen (s::rest) := hp.totLen_eq.symm
  simp only [parseField,skip_inside (show idx < s.len by omega),ht,
    skip_inside (show idx < Seg.len ⟨xs,xs.length⟩ by change idx < xs.length; omega),hwrap,
    if_neg (List.cons_ne_nil _ _)]
  rcases hmax with rfl | hmax
  · have hsame : SamePlace xs xs.length ⟨s::rest,idx,(bytes (s::rest)).length,opts⟩
        ⟨[⟨xs,xs.length⟩],0+idx,xs.length,opts⟩ := .intro hf (by omega)
    rw [Nat.zero_add,show (bytes (s::rest)).length = xs.length by rw [length_bytes_cons]; omega] at hsame
    exact parseLoop_agree (samePlace_round hx) _ hsame
  · refine parseLoop_agree (R:=fun c d => ∃ o opts, c = ⟨s::rest,o,idxMax,opts⟩ ∧
      d = ⟨[⟨xs,xs.length⟩],o,idxMax,opts⟩) ?_ _ ⟨idx,opts,rfl,rfl⟩
    rintro c d ⟨o,opts,rfl,rfl⟩
    exact ⟨rfl,s,rest,_,_,rfl,rfl,parseStep_field hf hs hmax opts⟩

theorem parseField_inside {s : Seg} (idx idxMax : ℕ) (opts : RxOptions) (ht : s.totLen = s.len) :
    parseField [s] idx idxMax opts ≠ .error .wild ∧ parseField [s] idx idxMax opts ≠ .error .endless := by
  rw [parseField]
  by_cases hin : idx < s.len
  · simp only [skip_inside hin,if_neg (List.cons_ne_nil _ _)]
    exact parseLoop_inside hin (by rw [totLen,ht]; omega)
  · have hskip : (pbufSkip [s] idx).1 = [] := by
      rw [pbufSkip,if_pos (by omega)]
      rfl
    simp [hskip]

theorem parseReply_whole {p : Chain} {xs : Bytes} (hp : Packet p xs) (hw : Wide p) (hx : xs.length ≤ 65507) :
    parseReply p = parseReply [⟨xs,xs.length⟩] := by
  cases p with
  | nil => exact absurd hw id
  | cons s rest =>
    cases rest with
    | nil => rw [packet_single hp]
    | cons next rest =>
      have hf := packet_from hp hw
      have hl := hf.length
      rw [length_bytes_cons] at hl
      have hs := hw.1
      have hfield : ∀ idx idxMax, idx ≤ optionsOfs → (idxMax = xs.length ∨ idxMax ≤ fileOfs+fileLen) →
          ∀ opts, parseField (s::next::rest) idx idxMax opts = parseField [⟨xs,xs.length⟩] idx idxMax opts :=
        fun idx idxMax hi hm opts => parseField_whole hp hf hs hx hi hm opts
      have ht : totLen (s::next::rest) = xs.length := hp.totLen_eq
      simp only [fileOfs,fileLen] at hs
      have hover : ∀ (b : Bool) idx idxMax opts, idx ≤ optionsOfs → idxMax ≤ fileOfs+fileLen →
          parseOverloaded (s::next::rest) b idx idxMax opts =
            parseOverloaded [⟨xs,xs.length⟩] b idx idxMax opts := by
        intro b idx idxMax opts hi hm
        rw [parseOverloaded,parseOverloaded,hfield idx idxMax hi (Or.inr hm)]
      rw [parseReply,parseReply,if_neg (by simp only [snameOfs]; omega),
        if_neg (by simp only [snameOfs,Seg.len]; omega),ht,
        show totLen [⟨xs,xs.length⟩] = xs.length from rfl,hfield _ _ le_rfl (Or.inl rfl)]
      simp only [hover _ fileOfs _ _ (by decide) le_rfl,
        hover _ snameOfs (snameOfs+snameLen) _ (by decide) (by decide)]

/-- A message that is cut into pbufs of a reasonable size is read as the same
message in one pbuf, without a read outside the pbufs, and the walk ends. -/
theorem reply_read_as_one_pbuf {p : Chain} {xs : Bytes} (hp : Packet p xs) (hw : Wide p)
    (hx : xs.length ≤ 65507) :
    parseReply p = parseReply [⟨xs,xs.length⟩] ∧ parseReply p ≠ .error .wild ∧
      parseReply p ≠ .error .endless := by
  have hwhole := parseReply_whole hp hw hx
  refine ⟨hwhole,?_⟩
  have hin := fun idx idxMax opts => parseField_inside (s:=⟨xs,xs.length⟩) idx idxMax opts rfl
  have hover : ∀ (b : Bool) idx idxMax opts, parseOverloaded [⟨xs,xs.length⟩] b idx idxMax opts ≠ .error .wild ∧
      parseOverloaded [⟨xs,xs.length⟩] b idx idxMax opts ≠ .error .endless := by
    intro b idx idxMax opts
    cases b with
    | false => simp [parseOverloaded]
    | true => exact hin idx idxMax opts
  rw [hwhole,parseReply]
  by_cases hshort : Seg.len ⟨xs,xs.length⟩ < snameOfs
  · simp [hshort]
  rw [if_neg hshort]
  have h1 := hin optionsOfs (totLen [⟨xs,xs.length⟩]) fun _ => none
  cases hm : parseField [⟨xs,xs.length⟩] optionsOfs (totLen [⟨xs,xs.length⟩]) fun _ => none with
  | error e =>
    rw [hm] at h1
    exact h1
  | ok opts =>
    simp only []
    have h2 := hover (opts .overload = some 1 ∨ opts .overload = some 3) fileOfs (fileOfs+fileLen)
      (Function.update opts .overload none)
    cases hm2 : parseOverloaded [⟨xs,xs.length⟩] (opts .overload = some 1 ∨ opts .overload = some 3) fileOfs
        (fileOfs+fileLen) (Function.update opts .overload none) with
    | error e =>
      rw [hm2] at h2
      exact h2
    | ok opts' => exact hover _ _ _ opts'

theorem reply_read_as_one_pbuf_two :
    parseReply [⟨List.replicate 500 0,502⟩,⟨[255,0],2⟩] =
      parseReply [⟨List.replicate 500 0 ++ [255,0],(List.replicate 500 0 ++ [255,0] : Bytes).length⟩] ∧
    parseReply [⟨List.replicate 500 0,502⟩,⟨[255,0],2⟩] ≠ .error .wild ∧
    parseReply [⟨List.replicate 500 0,502⟩,⟨[255,0],2⟩] ≠ .error .endless :=
  reply_read_as_one_pbuf
    (show Packet [⟨List.replicate 500 0,502⟩,⟨[255,0],2⟩] (List.replicate 500 0 ++ [255,0]) from
      ⟨by simp [bytes,-List.reduceReplicate],by simp [Counted,Seg.len,bytes,-List.reduceReplicate],
        by simp [-List.reduceReplicate]⟩)
    ⟨by simp [Seg.len,fileOfs,fileLen,-List.reduceReplicate],by simp [Wide,Seg.len]⟩
    (by simp [-List.reduceReplicate])

end Dhcp
end EmbeddedShell
