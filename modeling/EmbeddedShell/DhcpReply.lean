import EmbeddedShell.DhcpMessage

/-!
# DHCP replies

What `dhcp_parse_reply` makes of a message, said without the walk over it. The options
field is well formed up to its end marker, the fields `file` and `sname` count only if
the option `overload` opens them, and of several options of a kind the first counts.
-/

namespace EmbeddedShell
namespace Dhcp

open CString PbufBytes

/-- `Region optionsIdx idxMax xs offset os`: from `offset` on the options `os` are read, up to an
end marker or to the first place behind the field, which is inside the message. -/
inductive Region (optionsIdx idxMax : ℕ) (xs : Bytes) : ℕ → List (UInt8 × Bytes) → Prop
  | past {offset : ℕ} (hm : idxMax ≤ offset) (hin : offset < xs.length) : Region optionsIdx idxMax xs offset []
  | fin {offset : ℕ} {ys : Bytes} (hm : offset < idxMax) (hd : xs.drop offset = 255::ys) :
      Region optionsIdx idxMax xs offset []
  | pad {offset : ℕ} {ys : Bytes} {os : List (UInt8 × Bytes)} (hm : offset < idxMax)
      (hd : xs.drop offset = 0::ys) (hr : Region optionsIdx idxMax xs (offset+1) os) :
      Region optionsIdx idxMax xs offset os
  | option {offset : ℕ} {op len : UInt8} {value ys : Bytes} {os : List (UInt8 × Bytes)} (hm : offset < idxMax)
      (hp : op ≠ 0) (he : op ≠ 255) (hl : value.length = len.toNat)
      (hd : xs.drop offset = op::len::(value++ys)) (hlegal : Legal optionsIdx (op,value))
      (hr : Region optionsIdx idxMax xs (offset+value.length+2) os) :
      Region optionsIdx idxMax xs offset ((op,value)::os)

theorem Region.inside {optionsIdx idxMax offset : ℕ} {xs : Bytes} {os : List (UInt8 × Bytes)}
    (h : Region optionsIdx idxMax xs offset os) : offset < xs.length := by
  cases h with
  | past _ hin => exact hin
  | fin _ hd | pad _ hd _ | option _ _ _ _ hd _ _ =>
    have hl := congrArg List.length hd
    simp only [List.length_drop,List.length_cons] at hl
    omega

theorem Region.legal {optionsIdx idxMax offset : ℕ} {xs : Bytes} {os : List (UInt8 × Bytes)}
    (h : Region optionsIdx idxMax xs offset os) : ∀ o ∈ os, Legal optionsIdx o := by
  induction h with
  | past _ _ | fin _ _ => simp
  | pad _ _ _ ih => exact ih
  | option _ _ _ _ _ hlegal _ ih => exact List.forall_mem_cons.mpr ⟨hlegal,ih⟩

theorem drop_option {xs ys value : Bytes} {offset : ℕ} {op len : UInt8}
    (h : xs.drop offset = op::len::(value++ys)) : xs.drop (offset+value.length+2) = ys := by
  rw [show offset+value.length+2 = offset+(value.length+2) by omega,← List.drop_drop,h]
  simp

theorem parseLoop_region {optionsIdx offsetMax offset : ℕ} {s : Seg} (hs : s.len < 2^16)
    {os : List (UInt8 × Bytes)} (hr : Region optionsIdx offsetMax s.payload offset os) {fuel : ℕ}
    (hfuel : s.len < fuel+offset) (opts : RxOptions) :
    parseLoop optionsIdx fuel ⟨[s],offset,offsetMax,opts⟩ = .ok (os.foldl (absorb optionsIdx) opts) := by
  have hin : offset < s.len := hr.inside
  obtain ⟨fuel,rfl⟩ : ∃ k, fuel = k+1 := ⟨fuel-1,by omega⟩
  induction hr generalizing fuel opts with
  | past hm _ =>
    rw [parseLoop]
    simp only [parseStep,if_pos hm,List.foldl_nil]
  | fin hm hd =>
    obtain ⟨hget,-,-⟩ := getElem?_of_drop hd
    rw [parseLoop]
    simp only [parseStep,if_neg (Nat.not_le.mpr hm),hget,if_true,List.foldl_nil]
  | @pad offset ys os hm hd hr ih =>
    have hnext : offset+1 < s.len := hr.inside
    obtain ⟨-,-,hlen⟩ := getElem?_of_drop hd
    have hpl : s.payload.length = s.len := rfl
    have hne : ys ≠ [] := List.ne_nil_of_length_pos (by omega)
    obtain ⟨fuel,rfl⟩ : ∃ k, fuel = k+1 := ⟨fuel-1,by omega⟩
    rw [parseLoop_next (parseStep_pad hs opts hd hne hm)]
    exact ih opts hnext _ (by omega)
  | @option offset op len value ys os hm hp he hl hd hlegal hr ih =>
    have hnext : offset+value.length+2 < s.len := hr.inside
    have hlen := congrArg List.length (drop_option hd)
    rw [List.length_drop] at hlen
    have hpl : s.payload.length = s.len := rfl
    have hne : ys ≠ [] := List.ne_nil_of_length_pos (by omega)
    obtain ⟨fuel,rfl⟩ : ∃ k, fuel = k+1 := ⟨fuel-1,by omega⟩
    rw [parseLoop_next (parseStep_option hs opts hp he hl hd hne hm hlegal)]
    exact ih _ hnext _ (by omega)

theorem region_of_parseLoop {optionsIdx offsetMax fuel offset : ℕ} {s : Seg} {opts result : RxOptions}
    (ho : offset < s.len) (h : parseLoop optionsIdx fuel ⟨[s],offset,offsetMax,opts⟩ = .ok result) :
    ∃ os, Region optionsIdx offsetMax s.payload offset os ∧ result = os.foldl (absorb optionsIdx) opts := by
  induction fuel generalizing offset opts with
  | zero => simp [parseLoop] at h
  | succ fuel ih =>
    by_cases hm : offsetMax ≤ offset
    · simp only [parseLoop,parseStep,if_pos hm,Except.ok.injEq] at h
      exact ⟨[],.past hm ho,h.symm⟩
    rcases parseStep_cases optionsIdx offsetMax opts ho with he | he | ⟨he,hend⟩ | ⟨n,opts',he,hlt,hn,hround⟩
    · simp [parseLoop,he] at h
    · simp [parseLoop,he] at h
    · simp only [parseLoop,he,Except.ok.injEq] at h
      obtain ⟨hlt,hget⟩ := List.getElem?_eq_some_iff.mp (hend.resolve_left hm)
      have hd : s.payload.drop offset = 255::s.payload.drop (offset+1) := by
        rw [List.drop_eq_getElem_cons hlt,hget]
      exact ⟨[],.fin (by omega) hd,h.symm⟩
    · rw [parseLoop_next he] at h
      obtain ⟨os,hr,rfl⟩ := ih hn h
      cases hround with
      | pad hd => exact ⟨os,.pad (by omega) hd hr,rfl⟩
      | @option op len value xs hp hne hl hd hlegal =>
        exact ⟨(op,value)::os,.option (by omega) hp hne hl hd hlegal hr,rfl⟩

/-- Up to the end of the message a region is a well formed options field. -/
theorem region_iff_fields {optionsIdx offset : ℕ} {xs : Bytes} {os : List (UInt8 × Bytes)} :
    Region optionsIdx xs.length xs offset os ↔
      (∃ rest, Fields (xs.drop offset) os rest) ∧ ∀ o ∈ os, Legal optionsIdx o := by
  constructor
  · intro h
    refine ⟨?_,h.legal⟩
    induction h with
    | past hm hin => omega
    | @fin _ ys _ hd => exact ⟨ys,by rw [hd]; exact .fin ys⟩
    | pad _ hd _ ih =>
      obtain ⟨rest,hf⟩ := ih
      obtain ⟨-,hnext,-⟩ := getElem?_of_drop hd
      exact ⟨rest,by rw [hd,← hnext]; exact hf.pad⟩
    | option _ hp he hl hd _ _ ih =>
      obtain ⟨rest,hf⟩ := ih
      rw [drop_option hd] at hf
      exact ⟨rest,by rw [hd]; exact hf.option hp he hl⟩
  · rintro ⟨⟨rest,hf⟩,hlegal⟩
    generalize hd : xs.drop offset = zs at hf
    induction hf generalizing offset with
    | fin rest =>
      obtain ⟨-,-,hlen⟩ := getElem?_of_drop hd
      exact .fin (by omega) hd
    | pad _ ih =>
      obtain ⟨-,hnext,hlen⟩ := getElem?_of_drop hd
      exact .pad (by omega) hd (ih hlegal hnext)
    | @option xs' rest os op len value hp he hl _ ih =>
      obtain ⟨-,-,hlen⟩ := getElem?_of_drop hd
      obtain ⟨ho,hos⟩ := List.forall_mem_cons.mp hlegal
      exact .option (by omega) hp he hl hd ho (ih hos (drop_option hd))

/-- The value that an option has for the kind `i`. -/
def valueOf (i : OptionIdx) (o : UInt8 × Bytes) : Option ℕ :=
  match decode optionsOfs o.1.toNat o.2.length with
  | some (n,some j) => if j = i then some (beValue (o.2.take n)) else none
  | _ => none

/-- The first value of a kind counts. -/
def given (os : List (UInt8 × Bytes)) (i : OptionIdx) : Option ℕ := os.findSome? (valueOf i)

@[simp] theorem given_nil (i : OptionIdx) : given [] i = none := rfl

theorem given_cons (o : UInt8 × Bytes) (os : List (UInt8 × Bytes)) (i : OptionIdx) :
    given (o::os) i = (valueOf i o).or (given os i) := by
  rw [given,List.findSome?_cons]
  cases valueOf i o with
  | none => rfl
  | some v => rfl

theorem given_append (os os' : List (UInt8 × Bytes)) (i : OptionIdx) :
    given (os++os') i = (given os i).or (given os' i) :=
  List.findSome?_append

theorem decode_of_legal {optionsIdx op len : ℕ} (h : decode optionsIdx op len ≠ none) :
    decode optionsIdx op len = decode optionsOfs op len := by
  unfold decode at h ⊢
  split at h
  all_goals first | rfl | skip
  by_cases hlen : len = 1 ∧ optionsIdx = optionsOfs
  · rw [if_pos hlen,if_pos ⟨hlen.1,rfl⟩]
  · exact absurd (if_neg hlen) h

theorem decode_overload {optionsIdx op len n : ℕ} (h : decode optionsIdx op len = some (n,some .overload)) :
    optionsIdx = optionsOfs := by
  unfold decode at h
  split at h
  all_goals first | (split at h <;> simp at h) | simp at h
  exact (by assumption : len = 1 ∧ optionsIdx = optionsOfs).2

theorem absorb_apply {optionsIdx : ℕ} {o : UInt8 × Bytes} (h : Legal optionsIdx o) (opts : RxOptions)
    (i : OptionIdx) : absorb optionsIdx opts o i = (opts i).or (valueOf i o) := by
  obtain ⟨⟨n,idx⟩,hdec⟩ := Option.ne_none_iff_exists'.mp h
  have hmain := (decode_of_legal h).symm.trans hdec
  rw [absorb,valueOf]
  simp only [hdec,hmain]
  cases idx with
  | none => simp
  | some j =>
    cases hg : opts j with
    | none =>
      by_cases hj : j = i
      · subst hj
        simp [hg]
      · simp [hj,hg,Function.update_of_ne (Ne.symm hj)]
    | some v =>
      by_cases hj : j = i
      · subst hj
        simp [hg]
      · simp [hj,hg]

theorem foldl_absorb {optionsIdx : ℕ} {os : List (UInt8 × Bytes)} (h : ∀ o ∈ os, Legal optionsIdx o)
    (opts : RxOptions) (i : OptionIdx) : os.foldl (absorb optionsIdx) opts i = (opts i).or (given os i) := by
  induction os generalizing opts with
  | nil => simp
  | cons o os ih =>
    obtain ⟨ho,hos⟩ := List.forall_mem_cons.mp h
    rw [List.foldl_cons,ih hos,absorb_apply ho,given_cons,Option.or_assoc]

/-- The fields `file` and `sname` cannot be opened from inside them. -/
theorem given_overload {optionsIdx : ℕ} (hi : optionsIdx ≠ optionsOfs) {os : List (UInt8 × Bytes)}
    (h : ∀ o ∈ os, Legal optionsIdx o) : given os .overload = none := by
  refine List.findSome?_eq_none_iff.mpr fun o ho => ?_
  obtain ⟨⟨n,idx⟩,hdec⟩ := Option.ne_none_iff_exists'.mp (h o ho)
  have hmain := (decode_of_legal (h o ho)).symm.trans hdec
  rw [valueOf]
  simp only [hmain]
  cases idx with
  | none => rfl
  | some j =>
    refine if_neg fun hj => hi ?_
    subst hj
    exact decode_overload hdec

/-- A field is read only if it is opened to options. -/
def Opened (xs : Bytes) (overloaded : Prop) (idx idxMax : ℕ) (os : List (UInt8 × Bytes)) : Prop :=
  (overloaded ∧ Region idx idxMax xs idx os) ∨ (¬ overloaded ∧ os = [])

/-- The options that the three fields of a message hold. -/
structure Holds (xs : Bytes) (options file sname : List (UInt8 × Bytes)) : Prop where
  fields : ∃ rest, Fields (xs.drop optionsOfs) options rest
  legal : ∀ o ∈ options, Legal optionsOfs o
  file : Opened xs (given options .overload = some 1 ∨ given options .overload = some 3) fileOfs
    (fileOfs+fileLen) file
  sname : Opened xs (given options .overload = some 2 ∨ given options .overload = some 3) snameOfs
    (snameOfs+snameLen) sname

theorem parseField_single {xs : Bytes} (hx : xs.length ≤ 65507) {idx idxMax : ℕ} (hm : idxMax < 2^16)
    {opts result : RxOptions} :
    parseField [⟨xs,xs.length⟩] idx idxMax opts = .ok result ↔
      ∃ os, Region idx idxMax xs idx os ∧ result = fun i => (opts i).or (given os i) := by
  have hlen : Seg.len ⟨xs,xs.length⟩ = xs.length := rfl
  rw [parseField]
  by_cases hin : idx < Seg.len ⟨xs,xs.length⟩
  · have hwrap : wrap 16 ((idxMax : ℤ)-(idx-idx : ℕ)) = idxMax := by
      rw [Nat.sub_self,wrap_sub (Nat.zero_le _) hm,Nat.sub_zero]
    have hsum {os : List (UInt8 × Bytes)} (hr : Region idx idxMax xs idx os) :
        os.foldl (absorb idx) opts = fun i => (opts i).or (given os i) :=
      funext fun i => foldl_absorb hr.legal opts i
    simp only [skip_inside hin,if_neg (List.cons_ne_nil _ _),hwrap]
    constructor
    · intro h
      obtain ⟨os,hr,rfl⟩ := region_of_parseLoop hin h
      exact ⟨os,hr,hsum hr⟩
    · rintro ⟨os,hr,rfl⟩
      rw [← hsum hr]
      exact parseLoop_region (s:=⟨xs,xs.length⟩) (by omega) hr (by simp only [totLen]; omega) opts
  · have hskip : (pbufSkip [⟨xs,xs.length⟩] idx).1 = [] := by
      rw [pbufSkip,if_pos (by omega)]
      rfl
    simp only [hskip,if_true]
    constructor
    · intro h
      cases h
    · rintro ⟨os,hr,-⟩
      exact absurd hr.inside (by omega)

theorem parseOverloaded_single {xs : Bytes} (hx : xs.length ≤ 65507) {overloaded : Prop} [Decidable overloaded]
    {idx idxMax : ℕ} (hm : idxMax < 2^16) {opts result : RxOptions} :
    parseOverloaded [⟨xs,xs.length⟩] overloaded idx idxMax opts = .ok result ↔
      ∃ os, Opened xs overloaded idx idxMax os ∧ result = fun i => (opts i).or (given os i) := by
  rw [parseOverloaded]
  by_cases ho : overloaded
  · simp [ho,Opened,parseField_single hx hm]
  · simp [ho,Opened,eq_comm]

theorem Opened.given_overload {xs : Bytes} {overloaded : Prop} {idx idxMax : ℕ} {os : List (UInt8 × Bytes)}
    (h : Opened xs overloaded idx idxMax os) (hi : idx ≠ optionsOfs) : given os .overload = none := by
  rcases h with ⟨-,hr⟩ | ⟨-,rfl⟩
  · exact Dhcp.given_overload hi hr.legal
  · rfl

theorem parseReply_ok_iff {s : Seg} {rest : Chain} {opts : RxOptions} :
    parseReply (s::rest) = .ok opts ↔ snameOfs ≤ s.len ∧
      ∃ opts₁, parseField (s::rest) optionsOfs (totLen (s::rest)) (fun _ => none) = .ok opts₁ ∧
      ∃ opts₂, parseOverloaded (s::rest) (opts₁ .overload = some 1 ∨ opts₁ .overload = some 3) fileOfs
          (fileOfs+fileLen) (Function.update opts₁ .overload none) = .ok opts₂ ∧
        parseOverloaded (s::rest) (opts₁ .overload = some 2 ∨ opts₁ .overload = some 3) snameOfs
          (snameOfs+snameLen) opts₂ = .ok opts := by
  rw [parseReply]
  by_cases hs : s.len < snameOfs
  · simp [hs]
  rw [if_neg hs]
  cases parseField (s::rest) optionsOfs (totLen (s::rest)) fun _ => none with
  | error e => simp
  | ok opts₁ =>
    simp only [Except.ok.injEq,exists_eq_left',Nat.not_lt.mp hs,true_and]
    cases parseOverloaded (s::rest) (opts₁ .overload = some 1 ∨ opts₁ .overload = some 3) fileOfs
        (fileOfs+fileLen) (Function.update opts₁ .overload none) with
    | error e => simp
    | ok opts₂ => simp

theorem given_three {xs : Bytes} {options file sname : List (UInt8 × Bytes)} (h : Holds xs options file sname) :
    (fun i => ((Function.update (given options) .overload none i).or (given file i)).or (given sname i)) =
      Function.update (given (options++file++sname)) .overload none := by
  funext i
  by_cases hi : i = .overload
  · subst hi
    simp [h.file.given_overload (by decide),h.sname.given_overload (by decide)]
  · simp [Function.update_of_ne hi,given_append,Option.or_assoc]

theorem parseReply_single {xs : Bytes} (hx : xs.length ≤ 65507) (opts : RxOptions) :
    parseReply [⟨xs,xs.length⟩] = .ok opts ↔ ∃ options file sname, Holds xs options file sname ∧
      opts = Function.update (given (options++file++sname)) .overload none := by
  rw [parseReply_ok_iff]
  change snameOfs ≤ xs.length ∧ (∃ opts₁, parseField [⟨xs,xs.length⟩] optionsOfs xs.length _ = _ ∧ _) ↔ _
  constructor
  · rintro ⟨-,opts₁,h₁,opts₂,h₂,h₃⟩
    obtain ⟨options,hr,rfl⟩ := (parseField_single hx (by omega)).mp h₁
    obtain ⟨file,hfile,rfl⟩ := (parseOverloaded_single hx (by decide)).mp h₂
    obtain ⟨sname,hsname,rfl⟩ := (parseOverloaded_single hx (by decide)).mp h₃
    obtain ⟨hfields,hlegal⟩ := region_iff_fields.mp hr
    have hholds : Holds xs options file sname := ⟨hfields,hlegal,hfile,hsname⟩
    exact ⟨options,file,sname,hholds,given_three hholds⟩
  · rintro ⟨options,file,sname,h,rfl⟩
    have hr := region_iff_fields.mpr ⟨h.fields,h.legal⟩
    have hin := hr.inside
    refine ⟨by simp only [snameOfs,optionsOfs] at hin ⊢; omega,given options,?_,
      fun i => (Function.update (given options) .overload none i).or (given file i),?_,?_⟩
    · exact (parseField_single hx (by omega)).mpr ⟨options,hr,rfl⟩
    · exact (parseOverloaded_single hx (by decide)).mpr ⟨file,h.file,rfl⟩
    · exact (parseOverloaded_single hx (by decide)).mpr ⟨sname,h.sname,(given_three h).symm⟩

/-- A message is accepted exactly if its options field is well formed, and so are the
fields that the option `overload` opens; the result is the first value of each kind. -/
theorem reply_options_iff {p : Chain} {xs : Bytes} (hp : Packet p xs) (hw : Wide p) (hx : xs.length ≤ 65507)
    (opts : RxOptions) :
    parseReply p = .ok opts ↔ ∃ options file sname, Holds xs options file sname ∧
      opts = Function.update (given (options++file++sname)) .overload none := by
  rw [parseReply_whole hp hw hx]
  exact parseReply_single hx opts

theorem reply_options_iff_offer :
    parseReply [⟨List.replicate 240 0 ++ [53,1,2,51,4,0,0,14,16,255],250⟩] =
      .ok (Function.update (Function.update (fun _ => none) .msgType (some 2)) .leaseTime (some 3600)) := by
  have hp : Packet [⟨List.replicate 240 0 ++ [53,1,2,51,4,0,0,14,16,255],250⟩]
      (List.replicate 240 0 ++ [53,1,2,51,4,0,0,14,16,255]) :=
    ⟨by simp [bytes,-List.reduceReplicate],by simp [Counted,Seg.len,bytes,-List.reduceReplicate],
      by simp [-List.reduceReplicate]⟩
  refine (reply_options_iff hp (by simp [Wide,Seg.len,-List.reduceReplicate])
    (by simp [-List.reduceReplicate]) _).mpr ⟨[(53,[2]),(51,[0,0,14,16])],[],[],?_,?_⟩
  · refine ⟨⟨[],?_⟩,by simp [Legal,decode],Or.inr ⟨by decide,rfl⟩,Or.inr ⟨by decide,rfl⟩⟩
    have hlease : Fields [51,4,0,0,14,16,255] [(51,[0,0,14,16])] [] :=
      (Fields.fin []).option (show (51 : UInt8) ≠ 0 by decide) (by decide)
        (show ([0,0,14,16] : Bytes).length = (4 : UInt8).toNat from rfl)
    rw [optionsOfs,List.drop_left' List.length_replicate]
    exact hlease.option (show (53 : UInt8) ≠ 0 by decide) (by decide)
      (show ([2] : Bytes).length = (1 : UInt8).toNat from rfl)
  · funext i
    cases i <;> rfl

end Dhcp
end EmbeddedShell
