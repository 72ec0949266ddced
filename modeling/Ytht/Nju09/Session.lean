import Mathlib.Data.List.OfFn
import Ytht.Ythtlib.Itoa
import Ytht.Ythtlib.Strlib
import Ytht.Ythtlib.Strop

/-!
# Nju09.Session

The session cookie: three letters for the slot in the table of sessions, four
for the number of the user, the thirty letters of the session id, and behind a
`_` the letter of the style.  `makeurlbase` writes it, `url_parse` takes it
apart and `user_init` reads the numbers.
-/

namespace Ytht

open Bytes

abbrev NWWWSTYLE : Int := 6
abbrev sessionSize : Nat := 80

/-- What `getrandomstr` makes: thirty capital letters. -/
structure SessionId where
  bytes : List UInt8
  length_eq : bytes.length = 30
  upper : ∀ ch ∈ bytes, isUpper ch = true
  deriving DecidableEq

theorem isUpper_random : ∀ n < 256, isUpper (65 + UInt8.ofNat n % 26) = true := by
  decide +kernel

/-- `getrandomstr`, from the bytes of `/dev/urandom`. -/
def getrandomstr (random : Fin 30 → UInt8) : SessionId where
  bytes := (List.ofFn random).map fun b => 65 + b % 26
  length_eq := by simp
  upper := by
    intro ch hch
    obtain ⟨b, -, rfl⟩ := List.mem_map.mp hch
    have h := isUpper_random b.toNat b.toNat_lt
    rwa [UInt8.ofNat_toNat] at h

/-! ## Writing the cookie -/

/-- `'A' + param % 26`. -/
def styleLetter (param : Int) : UInt8 := UInt8.ofNat (65 + param.tmod 26).toNat

/-- `addextraparam` on the string in a buffer of `size` bytes, with the string
`stale` behind its end. -/
def addextraparam (ub stale : List UInt8) (size n : Nat) (param : Int) : Int × List UInt8 :=
  if ub.contains 95 = false ∧ size < ub.length + 3 then (-1, ub)
  else
    let base := (cutAt 95 ub).length + 1
    let extra := if ub.contains 95 then ub.drop base else stale
    if size ≤ base + n + 1 then (-1, cutAt 95 ub ++ 95 :: extra)
    else
      (0, cutAt 95 ub ++ 95 ::
        (extra.take n ++ List.replicate (n - extra.length) 95 ++ [styleLetter param]))

/-- What `makeurlbase` returns and leaves in `sessionCookie`, where the string
`stale` was behind the token. -/
def makeurlbase (usehost smagic : List UInt8) (sessionid : Nat → List UInt8) (wwwstylenum : Int)
    (stale : List UInt8) (uent uid : Int) : List UInt8 × List UInt8 :=
  let ptr := if 80 ≤ usehost.length then [] else usehost
  let token :=
    if 0 ≤ uent then myitoa uent 3 ++ myitoa uid 4 ++ sessionid uent.toNat else []
  (ptr ++ 47 :: smagic ++ [47], (addextraparam token stale sessionSize 0 wwwstylenum).2)

/-! ## Reading it -/

/-- The numbers that `extraparam_init` sets: `wwwstylenum` and the index of `currstyle`. -/
def extraparamInit (wwwstylenum : Int) : List UInt8 → Int × Int
  | [] => (wwwstylenum, 1)
  | ch :: _ =>
      let i : Int := ch.toNat - 65
      if i < 0 ∨ NWWWSTYLE ≤ i then (0, 0) else (i, i)

/-- What `user_init` reads from a token. -/
structure Token where
  slot : Int
  uid : Int
  sessionid : List UInt8
  deriving DecidableEq

/-- The fields that `user_init` cuts a token into; a short one comes from telnet,
with part of a session id. -/
def userInitToken (ub : List UInt8) : Option Token :=
  if ub.length < 33 then
    if 8 ≤ ub.length then some ⟨myatoi ub 3, myatoi (ub.drop 3) 4, ub.drop 7⟩ else none
  else
    let ub := ub.take 37
    some ⟨myatoi ub 3, myatoi (ub.drop 3) 4, strsncpy (ub.drop 7) 31⟩

/-- `url_parse` on the cookie: what `extraparam_init` and `user_init` are called with. -/
def urlParseSession (cookie : List UInt8) : List UInt8 × List UInt8 :=
  let name := strsncpy cookie sessionSize
  ((name.dropWhile (· != 95)).drop 1, cutAt 95 name)

/-! ## The round trip -/

theorem ne_of_isUpper : ∀ n < 256, isUpper (UInt8.ofNat n) = true →
    UInt8.ofNat n ≠ 0 ∧ UInt8.ofNat n ≠ 95 := by
  decide +kernel

theorem SessionId.mem_ne (sessionid : SessionId) {ch : UInt8} (h : ch ∈ sessionid.bytes) :
    ch ≠ 0 ∧ ch ≠ 95 := by
  have hne := ne_of_isUpper ch.toNat ch.toNat_lt
  rw [UInt8.ofNat_toNat] at hne
  exact hne (sessionid.upper ch h)

/-- The bytes of a token end neither a string nor the token. -/
theorem token_ne (uent uid : Int) (sessionid : SessionId) :
    ∀ ch ∈ myitoa uent 3 ++ myitoa uid 4 ++ sessionid.bytes, ch ≠ 0 ∧ ch ≠ 95 := by
  intro ch hch
  rw [List.mem_append, List.mem_append] at hch
  rcases hch with (hch | hch) | hch
  · exact mem_myitoa hch
  · exact mem_myitoa hch
  · exact sessionid.mem_ne hch

theorem length_token (uent uid : Int) (sessionid : SessionId) :
    (myitoa uent 3 ++ myitoa uid 4 ++ sessionid.bytes).length = 37 := by
  rw [List.length_append, List.length_append, length_myitoa, length_myitoa, sessionid.length_eq]

/-- The letter is a byte of its own between `(` and `Z`. -/
theorem styleLetter_toNat (param : Int) :
    ((styleLetter param).toNat : Int) = 65 + param.tmod 26 := by
  have hlo : -26 < param.tmod 26 := Int.lt_tmod_of_pos param (by decide)
  have hhi : param.tmod 26 < 26 := Int.tmod_lt_of_pos param (by decide)
  rw [styleLetter, UInt8.toNat_ofNat']
  omega

theorem styleLetter_ne_zero (param : Int) : styleLetter param ≠ 0 := by
  have hlo : -26 < param.tmod 26 := Int.lt_tmod_of_pos param (by decide)
  intro h
  have hnat := styleLetter_toNat param
  rw [h] at hnat
  simp only [UInt8.toNat_zero] at hnat
  omega

/-- The style of a page is read as it was written. -/
theorem extraparamInit_styleLetter {style : Int} (hlo : 0 ≤ style) (hhi : style < NWWWSTYLE)
    (wwwstylenum : Int) : extraparamInit wwwstylenum [styleLetter style] = (style, style) := by
  have hstyles : NWWWSTYLE = 6 := rfl
  have hmod : style.tmod 26 = style := Int.tmod_eq_of_lt hlo (by omega)
  have hread : ((styleLetter style).toNat : Int) - 65 = style := by
    rw [styleLetter_toNat, hmod]
    omega
  rw [extraparamInit, hread]
  exact if_neg (by omega)

/-- `addextraparam` puts the style behind a token without one. -/
theorem addextraparam_token {ub : List UInt8} (hub : 95 ∉ ub) (hlen : ub.length + 3 ≤ sessionSize)
    (stale : List UInt8) (param : Int) :
    addextraparam ub stale sessionSize 0 param = (0, ub ++ 95 :: [styleLetter param]) := by
  have hcontains : ub.contains 95 = false := by
    rwa [← Bool.not_eq_true, List.contains_iff_mem]
  rw [addextraparam, if_neg (by omega)]
  simp only [hcontains, cutAt_of_notMem hub]
  rw [if_neg (by omega)]
  simp

/-- The cookie is taken apart at the `_`. -/
theorem urlParseSession_token {ub extra : List UInt8} (hub : ∀ ch ∈ ub, ch ≠ 0 ∧ ch ≠ 95)
    (hextra : ∀ ch ∈ extra, ch ≠ 0) (hlen : ub.length + extra.length + 2 ≤ sessionSize) :
    urlParseSession (ub ++ 95 :: extra) = (extra, ub) := by
  have hall : (ub ++ 95 :: extra).length ≤ sessionSize - 1 := by
    rw [List.length_append, List.length_cons]
    omega
  have hname : strsncpy (ub ++ 95 :: extra) sessionSize = ub ++ 95 :: extra := by
    rw [strsncpy, List.take_of_length_le hall, List.takeWhile_eq_self_iff]
    intro ch hch
    rw [List.mem_append, List.mem_cons] at hch
    rcases hch with hch | rfl | hch
    · exact decide_eq_true (hub ch hch).1
    · decide
    · exact decide_eq_true (hextra ch hch)
  have hub95 : 95 ∉ ub := fun h => (hub 95 h).2 rfl
  have hdrop : (ub ++ 95 :: extra).dropWhile (· != 95) = 95 :: extra := by
    rw [List.dropWhile_append_of_pos, List.dropWhile_cons_of_neg (by simp)]
    intro ch hch
    exact bne_iff_ne.mpr (hub ch hch).2
  rw [urlParseSession, hname, hdrop, cutAt_append_cons hub95, List.drop_one, List.tail_cons]

theorem userInitToken_token {uent uid : Nat} (huent : uent < 64 ^ 3) (huid : uid < 64 ^ 4)
    (sessionid : SessionId) :
    userInitToken (myitoa uent 3 ++ myitoa uid 4 ++ sessionid.bytes) =
      some ⟨uent, uid, sessionid.bytes⟩ := by
  have hlen := length_token uent uid sessionid
  have hslot : myatoi (myitoa uent 3 ++ myitoa uid 4 ++ sessionid.bytes) 3 = uent := by
    rw [List.append_assoc, myatoi_append, Int.emod_eq_of_lt (by omega) (by omega)]
    exact toInt_of_range (by omega) (by omega)
  have huser : myatoi ((myitoa uent 3 ++ myitoa uid 4 ++ sessionid.bytes).drop 3) 4 = uid := by
    rw [List.append_assoc, List.drop_append_of_le_length (length_myitoa _ _).ge,
      List.drop_of_length_le (length_myitoa _ _).le, List.nil_append, myatoi_append,
      Int.emod_eq_of_lt (by omega) (by omega)]
    exact toInt_of_range (by omega) (by omega)
  have hid : strsncpy ((myitoa uent 3 ++ myitoa uid 4 ++ sessionid.bytes).drop 7) 31 =
      sessionid.bytes := by
    have hseven : (myitoa (uent : Int) 3 ++ myitoa (uid : Int) 4).length = 7 := by
      rw [List.length_append, length_myitoa, length_myitoa]
    rw [List.drop_append_of_le_length hseven.ge, List.drop_of_length_le hseven.le, List.nil_append,
      strsncpy, List.take_of_length_le (by rw [sessionid.length_eq]), List.takeWhile_eq_self_iff]
    exact fun ch hch => decide_eq_true (sessionid.mem_ne hch).1
  rw [userInitToken, if_neg (by omega), List.take_of_length_le hlen.le]
  simp only [hslot, huser, hid]

/-- **The round trip**: `myatoi` undoes `myitoa` as far as the digits go, and what
`makeurlbase` puts into the cookie is read as the same slot, user, session id
and style. -/
theorem session_roundtrip {n : Int} (hn : IntRange n) (len : Nat) {uent uid : Nat}
    (huent : uent < 64 ^ 3) (huid : uid < 64 ^ 4) (sessionid : Nat → SessionId)
    (usehost smagic stale : List UInt8) (style wwwstylenum : Int) :
    myatoi (myitoa n len) len = (if n < 0 ∧ 6 ≤ len then n else n % 64 ^ len) ∧
      let cookie := (makeurlbase usehost smagic (fun i => (sessionid i).bytes) style stale
        uent uid).2
      userInitToken (urlParseSession cookie).2 = some ⟨uent, uid, (sessionid uent).bytes⟩ ∧
        (urlParseSession cookie).1 = [styleLetter style] ∧
        (0 ≤ style → style < NWWWSTYLE →
          extraparamInit wwwstylenum (urlParseSession cookie).1 = (style, style)) := by
  refine ⟨myatoi_myitoa hn len, ?_⟩
  intro cookie
  have hne := token_ne uent uid (sessionid uent)
  have hlen := length_token uent uid (sessionid uent)
  have hsize : sessionSize = 80 := rfl
  have hcookie : cookie = (myitoa uent 3 ++ myitoa uid 4 ++ (sessionid uent).bytes) ++
      95 :: [styleLetter style] := by
    simp only [cookie, makeurlbase]
    rw [if_pos (by omega), Int.toNat_natCast,
      addextraparam_token (fun h => (hne 95 h).2 rfl) (by omega)]
  have hparse : urlParseSession cookie =
      ([styleLetter style], myitoa uent 3 ++ myitoa uid 4 ++ (sessionid uent).bytes) := by
    rw [hcookie]
    refine urlParseSession_token hne (fun ch hch => ?_) (by rw [hlen, List.length_singleton]; decide)
    rw [List.mem_singleton.mp hch]
    exact styleLetter_ne_zero style
  rw [hparse]
  exact ⟨userInitToken_token huent huid (sessionid uent), rfl,
    fun hlo hhi => extraparamInit_styleLetter hlo hhi wwwstylenum⟩

/-- Slot 5 of user 7 in the second style, and -1 in three letters. -/
theorem session_roundtrip_seven :
    myatoi (myitoa (-1) 3) 3 = (if (-1 : Int) < 0 ∧ 6 ≤ 3 then -1 else (-1) % 64 ^ 3) ∧
      let sessionid : Nat → SessionId := fun _ => getrandomstr fun _ => 0
      let cookie := (makeurlbase [] [98] (fun i => (sessionid i).bytes) 1 [] (5 : Nat) (7 : Nat)).2
      userInitToken (urlParseSession cookie).2 =
          some ⟨(5 : Nat), (7 : Nat), (sessionid 5).bytes⟩ ∧
        (urlParseSession cookie).1 = [styleLetter 1] ∧
        ((0 : Int) ≤ 1 → 1 < NWWWSTYLE →
          extraparamInit 0 (urlParseSession cookie).1 = (1, 1)) :=
  session_roundtrip (by decide) 3 (by decide) (by decide) (fun _ => getrandomstr fun _ => 0) []
    [98] [] 1 0

/-- Six letters say more than an `int` holds. -/
theorem myatoi_myitoa_minus_one :
    ¬ ∀ n, IntRange n → ∀ len, myatoi (myitoa n len) len = n % 64 ^ len := by
  intro h
  have hone := h (-1) (by decide) 6
  revert hone
  decide +kernel

end Ytht
