import SlsteamMoon.IpcFrame.TrailingRoot

/-! The three readers of a signature text: the catalog's check, the parser of the local cache and the
cursor of the live scan. A wildcard has two spellings. -/
namespace SlsteamMoon.Signatures
open KeyValues IpcFrame
open ProvisionCache (isDigit isSpace numberOf)

def question : UInt8 := 0x3f

def isUpperHex (c : UInt8) : Bool := isDigit c || (0x41 ≤ c && c ≤ 0x46)

/-- A token that is neither wildcard: two capital hexadecimal digits. -/
def isByte (token : Bytes) : Bool := token.length = 2 && token.all isUpperHex

def isWildcard (token : Bytes) : Bool := token = [question] || token = [question, question]

/-- The checks before the loop: no blank at either end. -/
def framed (signature : Bytes) : Bool :=
  signature ≠ [] && signature.head? ≠ some space && signature.getLast? ≠ some space

/-- The token loop of isSignature. -/
def checkTokens : List Bytes → Bool → Option Bool
  | [], fixed => some fixed
  | token :: rest, fixed =>
    if token = [] then none
    else if isWildcard token then checkTokens rest fixed
    else if isByte token then checkTokens rest true
    else none

def isSignature (signature : Bytes) : Bool :=
  framed signature && (checkTokens (signature.splitOn space) false).getD false

def nibble (c : UInt8) : Nat := if c ≤ 0x39 then c.toNat - 0x30 else c.toNat - 0x41 + 10

def kMaximumTokens : Nat := 1024

/-- The token loop of parseSignature, with the cells so far. -/
def parseTokens : List Bytes → List Int → Bool → Option (List Int × Bool)
  | [], result, fixed => some (result, fixed)
  | token :: rest, result, fixed =>
    if kMaximumTokens ≤ result.length then none
    else if token = [] then none
    else if isWildcard token then parseTokens rest (result ++ [-1]) fixed
    else if isByte token then
      parseTokens rest (result ++ [(numberOf 16 nibble token : Int)]) true
    else none

def parseSignature (signature : Bytes) : Option (List Int) :=
  if framed signature then
    (parseTokens (signature.splitOn space) [] false).bind fun (result, fixed) =>
      if fixed then some result else none
  else none

def signatureSize (signature : Bytes) : Option Nat := (parseSignature signature).map List.length

def asByte (cell : Int) : UInt8 := UInt8.ofNat (cell % 0x100).toNat

/-- A cell below zero fits any byte. -/
def fits (cell : Int) (byte : UInt8) : Bool := cell < 0 || byte == asByte cell

def signatureMatches (signature bytes : Bytes) : Bool :=
  match parseSignature signature with
  | none => false
  | some cells => cells.length = bytes.length && (cells.zip bytes).all fun (cell, byte) => fits cell byte

/-- What `strtoul` leaves unread, in base 16: the whole text when no digit is found. -/
def strtoulEnd (text : Bytes) : Bytes :=
  let body := text.dropWhile isSpace
  let unsigned := if body.head? = some 0x2b ∨ body.head? = some 0x2d then body.tail else body
  let bare :=
    if (unsigned.take 2 = [0x30, 0x78] ∨ unsigned.take 2 = [0x30, 0x58]) ∧ (unsigned.drop 2).head?.any isHex then
      unsigned.drop 2
    else unsigned
  if bare.head?.any isHex then bare.dropWhile isHex else text

/-- The conversion of an `unsigned long` to a cell of 16 bits. -/
def asCell (value : UInt32) : Int := (value.toNat : Int).bmod 0x10000

/-- The cursor loop of patternToBytes. A step that converts a number also steps over the character
behind it. -/
def cursorLoop : Nat → Bytes → List Int
  | 0, _ => []
  | _, [] => []
  | fuel + 1, c :: rest =>
    if c = question then -1 :: cursorLoop fuel rest
    else if c ≠ space then asCell (strtoul (c :: rest)) :: cursorLoop fuel (strtoulEnd (c :: rest)).tail
    else cursorLoop fuel rest

def patternToBytes (pattern : Bytes) : List Int :=
  let text := pattern.takeWhile (· ≠ 0)
  cursorLoop text.length text

/-! The tokens of a signature. -/

inductive Token where
  | any
  | anyTwice
  | byte (high low : Fin 16)

def digitOf (n : Fin 16) : UInt8 := if n.val < 10 then 0x30 + UInt8.ofNat n.val else 0x37 + UInt8.ofNat n.val

def Token.text : Token → Bytes
  | .any => [question]
  | .anyTwice => [question, question]
  | .byte high low => [digitOf high, digitOf low]

def Token.cell : Token → Int
  | .any | .anyTwice => -1
  | .byte high low => (16 * high.val + low.val : Nat)

def Token.isFixed : Token → Bool
  | .byte _ _ => true
  | _ => false

/-- What the cursor loop makes of a token. -/
def Token.cells : Token → List Int
  | .anyTwice => [-1, -1]
  | token => [token.cell]

def signatureOf (tokens : List Token) : Bytes := [space].intercalate (tokens.map Token.text)

private theorem digitOf_spec (n : Fin 16) : isUpperHex (digitOf n) = true ∧ isHex (digitOf n) = true ∧
    isSpace (digitOf n) = false ∧ nibble (digitOf n) = n.val ∧ hexValue (digitOf n) = n.val ∧
    digitOf n ≠ question ∧ digitOf n ≠ space ∧ digitOf n ≠ 0 ∧ digitOf n ≠ 0x2b ∧ digitOf n ≠ 0x2d ∧
    digitOf n ≠ 0x78 ∧ digitOf n ≠ 0x58 := by
  revert n
  decide

private theorem exists_digitOf {c : UInt8} (h : isUpperHex c = true) : ∃ n, c = digitOf n := by
  have hrange : (0x30 ≤ c.toNat ∧ c.toNat ≤ 0x39) ∨ (0x41 ≤ c.toNat ∧ c.toNat ≤ 0x46) := by
    simpa [isUpperHex, isDigit, UInt8.le_iff_toNat_le] using h
  obtain hdigit | hletter := hrange
  · refine ⟨⟨c.toNat - 0x30, by omega⟩, UInt8.toNat_inj.mp ?_⟩
    rw [digitOf, if_pos (by dsimp only; omega), UInt8.toNat_add, UInt8.toNat_ofNat']
    simp only [UInt8.reduceToNat]
    omega
  · refine ⟨⟨c.toNat - 0x37, by omega⟩, UInt8.toNat_inj.mp ?_⟩
    rw [digitOf, if_neg (by dsimp only; omega), UInt8.toNat_add, UInt8.toNat_ofNat']
    simp only [UInt8.reduceToNat]
    omega

private theorem Token.text_ne_nil (t : Token) : t.text ≠ [] := by
  cases t <;> exact List.cons_ne_nil _ _

private theorem Token.space_notMem (t : Token) : space ∉ t.text := by
  cases t with
  | any => decide
  | anyTwice => decide
  | byte high low =>
    have hhigh := (digitOf_spec high).2.2.2.2.2.2.1
    have hlow := (digitOf_spec low).2.2.2.2.2.2.1
    simp [Token.text, hhigh.symm, hlow.symm]

private theorem digitOf_injective {m n : Fin 16} (h : digitOf m = digitOf n) : m = n := by
  have hnibble := congrArg nibble h
  rw [(digitOf_spec m).2.2.2.1, (digitOf_spec n).2.2.2.1] at hnibble
  exact Fin.ext hnibble

/-- The text of a token tells which it is. -/
theorem text_injective {t u : Token} (h : t.text = u.text) : t = u := by
  have hquestion : ∀ n, digitOf n ≠ question := fun n => (digitOf_spec n).2.2.2.2.2.1
  cases t <;> cases u <;> simp_all [Token.text, eq_comm]
  obtain ⟨hhigh, hlow⟩ := h
  exact ⟨digitOf_injective hhigh, digitOf_injective hlow⟩

private theorem isByte_iff {token : Bytes} : isByte token = true ↔ ∃ high low, token = (Token.byte high low).text := by
  constructor
  · intro h
    obtain ⟨hlength, hall⟩ := Bool.and_eq_true_iff.mp h
    match token, of_decide_eq_true hlength with
    | [a, b], _ =>
      obtain ⟨ha, hb, -⟩ : isUpperHex a = true ∧ isUpperHex b = true ∧ True := by simpa using hall
      obtain ⟨high, rfl⟩ := exists_digitOf ha
      obtain ⟨low, rfl⟩ := exists_digitOf hb
      exact ⟨high, low, rfl⟩
  · rintro ⟨high, low, rfl⟩
    simp [isByte, Token.text, (digitOf_spec high).1, (digitOf_spec low).1]

private theorem isWildcard_byte (high low : Fin 16) : isWildcard (Token.byte high low).text = false := by
  have hhigh := (digitOf_spec high).2.2.2.2.2.1
  simp [isWildcard, Token.text, hhigh]

private theorem numberOf_byte (high low : Fin 16) :
    ((numberOf 16 nibble (Token.byte high low).text : Nat) : Int) = (Token.byte high low).cell := by
  simp [numberOf, Token.text, Token.cell, digitOf_spec, Nat.mul_comm]

/-- What the loop of the cache does with one token. -/
theorem parseTokens_text (t : Token) (rest : List Bytes) (result : List Int) (fixed : Bool) :
    parseTokens (t.text :: rest) result fixed =
      if kMaximumTokens ≤ result.length then none
      else parseTokens rest (result ++ [t.cell]) (fixed || t.isFixed) := by
  rw [parseTokens, if_neg t.text_ne_nil]
  cases t with
  | any => simp [isWildcard, Token.text, Token.cell, Token.isFixed]
  | anyTwice => simp [isWildcard, Token.text, Token.cell, Token.isFixed]
  | byte high low =>
    have hbyte := isByte_iff.mpr ⟨high, low, rfl⟩
    simp only [isWildcard_byte, hbyte, numberOf_byte, Token.isFixed, Bool.or_true, if_true, if_false,
      Bool.false_eq_true]

private theorem checkTokens_text (t : Token) (rest : List Bytes) (fixed : Bool) :
    checkTokens (t.text :: rest) fixed = checkTokens rest (fixed || t.isFixed) := by
  rw [checkTokens, if_neg t.text_ne_nil]
  cases t with
  | any => simp [isWildcard, Token.text, Token.isFixed]
  | anyTwice => simp [isWildcard, Token.text, Token.isFixed]
  | byte high low =>
    have hbyte := isByte_iff.mpr ⟨high, low, rfl⟩
    simp only [isWildcard_byte, hbyte, Token.isFixed, Bool.or_true, if_true, if_false, Bool.false_eq_true]

/-- A piece that is no token stops both loops. -/
theorem exists_token {piece : Bytes} (h : isWildcard piece = true ∨ isByte piece = true) :
    ∃ t : Token, piece = t.text := by
  obtain hwild | hbyte := h
  · obtain hone | htwo := Bool.or_eq_true_iff.mp hwild
    · exact ⟨.any, of_decide_eq_true hone⟩
    · exact ⟨.anyTwice, of_decide_eq_true htwo⟩
  · obtain ⟨high, low, rfl⟩ := isByte_iff.mp hbyte
    exact ⟨.byte high low, rfl⟩

private theorem parseTokens_eq_some_iff {pieces : List Bytes} {result cells : List Int} {fixed known : Bool}
    (h : result.length ≤ kMaximumTokens) :
    parseTokens pieces result fixed = some (cells, known) ↔
      ∃ tokens : List Token, pieces = tokens.map Token.text ∧ cells = result ++ tokens.map Token.cell ∧
        known = (fixed || tokens.any Token.isFixed) ∧ result.length + tokens.length ≤ kMaximumTokens := by
  induction pieces generalizing result fixed with
  | nil =>
    rw [parseTokens, Option.some.injEq, Prod.mk.injEq]
    constructor
    · rintro ⟨rfl, rfl⟩
      exact ⟨[], rfl, (List.append_nil _).symm, (Bool.or_false _).symm, h⟩
    · rintro ⟨tokens, hnil, rfl, rfl, -⟩
      obtain rfl := List.map_eq_nil_iff.mp hnil.symm
      exact ⟨(List.append_nil _).symm, (Bool.or_false _).symm⟩
  | cons piece pieces ih =>
    by_cases htoken : ∃ t : Token, piece = t.text
    · obtain ⟨t, rfl⟩ := htoken
      rw [parseTokens_text]
      split_ifs with hfull
      · simp only [false_iff, not_exists]
        rintro (_ | ⟨u, tokens⟩) ⟨hpieces, -, -, hroom⟩
        · cases hpieces
        · rw [List.length_cons] at hroom
          omega
      · have hroom : (result ++ [t.cell]).length ≤ kMaximumTokens := by
          rw [List.length_append, List.length_singleton]
          omega
        rw [ih hroom, List.length_append, List.length_singleton]
        constructor
        · rintro ⟨tokens, rfl, rfl, rfl, hlength⟩
          refine ⟨t :: tokens, rfl, by simp, by simp [Bool.or_assoc], ?_⟩
          rw [List.length_cons]
          omega
        · rintro ⟨_ | ⟨u, tokens⟩, hpieces, rfl, rfl, hlength⟩
          · cases hpieces
          · obtain ⟨hu, hrest⟩ := List.cons.inj hpieces
            obtain rfl : t = u := text_injective hu
            rw [List.length_cons] at hlength
            exact ⟨tokens, hrest, by simp, by simp [Bool.or_assoc], by omega⟩
    · have hnone : parseTokens (piece :: pieces) result fixed = none := by
        have hwild : isWildcard piece ≠ true := fun hw => htoken (exists_token (.inl hw))
        have hbyte : isByte piece ≠ true := fun hb => htoken (exists_token (.inr hb))
        rw [parseTokens, if_neg hwild, if_neg hbyte]
        split_ifs <;> rfl
      rw [hnone]
      simp only [false_iff, not_exists, reduceCtorEq]
      rintro (_ | ⟨u, tokens⟩) ⟨hpieces, -⟩
      · cases hpieces
      · exact htoken ⟨u, (List.cons.inj hpieces).1⟩

private theorem checkTokens_eq_some_iff {pieces : List Bytes} {fixed known : Bool} :
    checkTokens pieces fixed = some known ↔
      ∃ tokens : List Token, pieces = tokens.map Token.text ∧ known = (fixed || tokens.any Token.isFixed) := by
  induction pieces generalizing fixed with
  | nil =>
    rw [checkTokens, Option.some.injEq]
    constructor
    · rintro rfl
      exact ⟨[], rfl, (Bool.or_false _).symm⟩
    · rintro ⟨tokens, hnil, rfl⟩
      obtain rfl := List.map_eq_nil_iff.mp hnil.symm
      exact (Bool.or_false _).symm
  | cons piece pieces ih =>
    by_cases htoken : ∃ t : Token, piece = t.text
    · obtain ⟨t, rfl⟩ := htoken
      rw [checkTokens_text, ih]
      constructor
      · rintro ⟨tokens, rfl, rfl⟩
        exact ⟨t :: tokens, rfl, by simp [Bool.or_assoc]⟩
      · rintro ⟨_ | ⟨u, tokens⟩, hpieces, rfl⟩
        · cases hpieces
        · obtain ⟨hu, hrest⟩ := List.cons.inj hpieces
          obtain rfl : t = u := text_injective hu
          exact ⟨tokens, hrest, by simp [Bool.or_assoc]⟩
    · have hnone : checkTokens (piece :: pieces) fixed = none := by
        have hwild : isWildcard piece ≠ true := fun hw => htoken (exists_token (.inl hw))
        have hbyte : isByte piece ≠ true := fun hb => htoken (exists_token (.inr hb))
        rw [checkTokens, if_neg hwild, if_neg hbyte]
        split_ifs <;> rfl
      rw [hnone]
      simp only [false_iff, not_exists, reduceCtorEq]
      rintro (_ | ⟨u, tokens⟩) ⟨hpieces, -⟩
      · cases hpieces
      · exact htoken ⟨u, (List.cons.inj hpieces).1⟩

theorem splitOn_signatureOf {tokens : List Token} (h : tokens ≠ []) :
    (signatureOf tokens).splitOn space = tokens.map Token.text := by
  apply List.splitOn_intercalate
  · intro piece hpiece
    obtain ⟨t, -, rfl⟩ := List.mem_map.mp hpiece
    exact t.space_notMem
  · simpa using h

private theorem signatureOf_cons_cons (t u : Token) (tokens : List Token) :
    signatureOf (t :: u :: tokens) = t.text ++ space :: signatureOf (u :: tokens) := by
  simp [signatureOf, List.intercalate]

private theorem signatureOf_singleton (t : Token) : signatureOf [t] = t.text := by
  simp [signatureOf, List.intercalate]

private theorem framed_text (t : Token) : framed t.text = true := by
  have hspace : ∀ n, digitOf n ≠ space := fun n => (digitOf_spec n).2.2.2.2.2.2.1
  cases t with
  | any => decide
  | anyTwice => decide
  | byte high low => simp [framed, Token.text, hspace]

/-- A row of tokens has no blank at its ends. -/
theorem framed_signatureOf {tokens : List Token} (h : tokens ≠ []) : framed (signatureOf tokens) = true := by
  induction tokens with
  | nil => exact absurd rfl h
  | cons t tokens ih =>
    cases tokens with
    | nil =>
      rw [signatureOf_singleton]
      exact framed_text t
    | cons u tokens =>
      have hlast := ih (List.cons_ne_nil _ _)
      have hfirst := framed_text t
      rw [signatureOf_cons_cons]
      simp only [framed, Bool.and_eq_true, decide_eq_true_eq] at hlast hfirst ⊢
      refine ⟨⟨List.append_ne_nil_of_right_ne_nil _ (List.cons_ne_nil _ _), ?_⟩, ?_⟩
      · rw [List.head?_append_of_ne_nil _ t.text_ne_nil]
        exact hfirst.1.2
      · rw [List.getLast?_append_of_ne_nil _ (List.cons_ne_nil _ _), List.getLast?_cons_of_ne_nil hlast.1.1]
        exact hlast.2

private theorem intercalate_map_text {signature : Bytes} {tokens : List Token}
    (h : signature.splitOn space = tokens.map Token.text) : signature = signatureOf tokens := by
  rw [signatureOf, ← h, List.intercalate_splitOn]

theorem isSignature_iff {signature : Bytes} :
    isSignature signature = true ↔
      ∃ tokens, signature = signatureOf tokens ∧ tokens.any Token.isFixed = true := by
  rw [isSignature, Bool.and_eq_true]
  constructor
  · rintro ⟨-, hcheck⟩
    cases hknown : checkTokens (signature.splitOn space) false with
    | none =>
      rw [hknown] at hcheck
      cases hcheck
    | some known =>
      obtain ⟨tokens, hpieces, rfl⟩ := checkTokens_eq_some_iff.mp hknown
      rw [hknown] at hcheck
      exact ⟨tokens, intercalate_map_text hpieces, hcheck⟩
  · rintro ⟨tokens, rfl, hfixed⟩
    have hne : tokens ≠ [] := by
      rintro rfl
      cases hfixed
    refine ⟨framed_signatureOf hne, ?_⟩
    rw [splitOn_signatureOf hne, checkTokens_eq_some_iff.mpr ⟨tokens, rfl, rfl⟩]
    exact hfixed

/-- The cache takes what the catalog takes, up to 1024 tokens, a cell for each. -/
theorem parseSignature_eq_some_iff {signature : Bytes} {cells : List Int} :
    parseSignature signature = some cells ↔
      ∃ tokens, signature = signatureOf tokens ∧ tokens.any Token.isFixed = true ∧
        tokens.length ≤ kMaximumTokens ∧ cells = tokens.map Token.cell := by
  have hloop := fun pieces known => @parseTokens_eq_some_iff pieces [] cells false known (Nat.zero_le _)
  simp only [List.nil_append, Bool.false_or, List.length_nil, Nat.zero_add] at hloop
  rw [parseSignature, Option.ite_none_right_eq_some]
  constructor
  · rintro ⟨-, hparse⟩
    obtain ⟨⟨result, known⟩, hresult, hknown⟩ := Option.bind_eq_some_iff.mp hparse
    dsimp only at hknown
    split_ifs at hknown with hfixed
    cases hknown
    obtain ⟨tokens, hpieces, rfl, hany, hlength⟩ := (hloop _ _).mp hresult
    exact ⟨tokens, intercalate_map_text hpieces, hany.symm.trans hfixed, hlength, rfl⟩
  · rintro ⟨tokens, rfl, hfixed, hlength, hcells⟩
    have hne : tokens ≠ [] := by
      rintro rfl
      cases hfixed
    refine ⟨framed_signatureOf hne, ?_⟩
    rw [splitOn_signatureOf hne, (hloop _ _).mpr ⟨tokens, rfl, hcells, rfl, hlength⟩, hfixed]
    rfl

/-! The cursor over a row of tokens. -/

/-- Behind a token the text ends or goes on with a blank. -/
def Stops (rest : Bytes) : Prop := rest = [] ∨ ∃ more, rest = space :: more

private theorem takeWhile_isHex_byte (high low : Fin 16) {rest : Bytes} (h : Stops rest) :
    ((Token.byte high low).text ++ rest).takeWhile isHex = (Token.byte high low).text ∧
      ((Token.byte high low).text ++ rest).dropWhile isHex = rest := by
  have hhigh := (digitOf_spec high).2.1
  have hlow := (digitOf_spec low).2.1
  have hblank : isHex space = false := rfl
  obtain rfl | ⟨more, rfl⟩ := h <;> simp [Token.text, hhigh, hlow, hblank]

theorem Stops.takeWhile {rest : Bytes} (h : Stops rest) : Stops (rest.takeWhile (· != 0)) := by
  obtain rfl | ⟨more, rfl⟩ := h
  · exact .inl rfl
  · exact .inr ⟨more.takeWhile (· != 0), rfl⟩

private theorem asCell_ofNat {n : Nat} (h : n < 0x100) : asCell (UInt32.ofNat n) = n := by
  have hword : (UInt32.ofNat n).toNat = n := by
    rw [UInt32.toNat_ofNat']
    omega
  have hcell : (n : Int).bmod 0x10000 = n := by
    rw [Int.bmod_def]
    omega
  unfold asCell
  rw [hword, hcell]

/-- A conversion reads the two digits and stops behind them. -/
theorem strtoul_byte (high low : Fin 16) {rest : Bytes} (h : Stops rest) :
    asCell (strtoul ((Token.byte high low).text ++ rest)) = (Token.byte high low).cell ∧
      strtoulEnd ((Token.byte high low).text ++ rest) = rest := by
  obtain ⟨-, hhex, hblank, -, hvalue, -, -, hzero, hplus, hminus, -⟩ := digitOf_spec high
  obtain ⟨-, -, -, -, hvalue', -, -, hzero', -, -, hx, hX⟩ := digitOf_spec low
  constructor
  · have htext : ((Token.byte high low).text ++ rest).takeWhile (· != 0) =
        (Token.byte high low).text ++ rest.takeWhile (· != 0) := by
      simp [Token.text, hzero, hzero']
    have hdigits := (takeWhile_isHex_byte high low h.takeWhile).1
    rw [strtoul, htext]
    generalize rest.takeWhile (· != 0) = cut at hdigits
    have hbody : ((Token.byte high low).text ++ cut).dropWhile isSpace = (Token.byte high low).text ++ cut := by
      simp [Token.text, hblank]
    have hhead : ((Token.byte high low).text ++ cut).head? = some (digitOf high) := rfl
    have htake : ((Token.byte high low).text ++ cut).take 2 = [digitOf high, digitOf low] := rfl
    simp only [hbody, hhead, htake, Option.some.injEq, hplus, hminus, hx, hX, List.cons.injEq, and_true, and_false,
      or_self, if_false, hdigits]
    have hnumber : numberOf 16 hexValue (Token.byte high low).text = 16 * high.val + low.val := by
      simp [numberOf, Token.text, hvalue, hvalue', Nat.mul_comm]
    have hhigh := high.isLt
    have hlow := low.isLt
    have hsmall : ¬0x100000000 ≤ 16 * high.val + low.val := by omega
    rw [hnumber, if_neg hsmall, asCell_ofNat (by omega), Token.cell]
  · have hbody : ((Token.byte high low).text ++ rest).dropWhile isSpace = (Token.byte high low).text ++ rest := by
      simp [Token.text, hblank]
    have hhead : ((Token.byte high low).text ++ rest).head? = some (digitOf high) := rfl
    have htake : ((Token.byte high low).text ++ rest).take 2 = [digitOf high, digitOf low] := rfl
    rw [strtoulEnd]
    simp only [hbody, hhead, htake, Option.some.injEq, hplus, hminus, hx, hX, List.cons.injEq, and_true, and_false,
      or_self, false_and, if_false, Option.any_some, hhex, if_true]
    exact (takeWhile_isHex_byte high low h).2

/-- The cursor over one token and the blank behind it. -/
theorem cursorLoop_text (t : Token) {rest : Bytes} (h : Stops rest) {fuel : Nat}
    (hfuel : t.text.length + rest.length ≤ fuel) :
    ∃ left, rest.tail.length ≤ left ∧ cursorLoop fuel (t.text ++ rest) = t.cells ++ cursorLoop left rest.tail := by
  have hblank : ∀ fuel, rest.length ≤ fuel → ∃ left, rest.tail.length ≤ left ∧
      cursorLoop fuel rest = cursorLoop left rest.tail := by
    intro fuel hroom
    obtain rfl | ⟨more, rfl⟩ := h
    · exact ⟨fuel, Nat.zero_le _, rfl⟩
    · cases fuel with
      | zero => cases hroom
      | succ fuel =>
        refine ⟨fuel, Nat.le_of_succ_le_succ hroom, ?_⟩
        rw [cursorLoop, if_neg (by decide), if_neg (not_not_intro rfl)]
        rfl
  cases t with
  | any =>
    obtain ⟨fuel, rfl⟩ : ∃ k, fuel = k + 1 := ⟨fuel - 1, by simp [Token.text] at hfuel; omega⟩
    obtain ⟨left, hleft, heq⟩ := hblank fuel (by simp [Token.text] at hfuel; omega)
    refine ⟨left, hleft, ?_⟩
    rw [Token.text, List.singleton_append, cursorLoop, if_pos rfl, heq]
    rfl
  | anyTwice =>
    obtain ⟨fuel, rfl⟩ : ∃ k, fuel = k + 2 := ⟨fuel - 2, by simp [Token.text] at hfuel; omega⟩
    obtain ⟨left, hleft, heq⟩ := hblank fuel (by simp [Token.text] at hfuel; omega)
    refine ⟨left, hleft, ?_⟩
    rw [Token.text, List.cons_append, List.singleton_append, cursorLoop, if_pos rfl, cursorLoop, if_pos rfl, heq]
    rfl
  | byte high low =>
    obtain ⟨fuel, rfl⟩ : ∃ k, fuel = k + 1 := ⟨fuel - 1, by simp [Token.text] at hfuel; omega⟩
    obtain ⟨hvalue, hend⟩ := strtoul_byte high low h
    have hquestion := (digitOf_spec high).2.2.2.2.2.1
    have hspace := (digitOf_spec high).2.2.2.2.2.2.1
    refine ⟨fuel, ?_, ?_⟩
    · rw [List.length_tail]
      simp only [Token.text, List.length_cons, List.length_nil] at hfuel
      omega
    · rw [Token.text, List.cons_append, cursorLoop, if_neg hquestion, if_pos hspace]
      rw [Token.text, List.cons_append] at hvalue hend
      rw [hvalue, hend]
      rfl

private theorem cursorLoop_signatureOf (tokens : List Token) {fuel : Nat}
    (hfuel : (signatureOf tokens).length ≤ fuel) :
    cursorLoop fuel (signatureOf tokens) = tokens.flatMap Token.cells := by
  induction tokens generalizing fuel with
  | nil => cases fuel <;> rfl
  | cons t tokens ih =>
    cases tokens with
    | nil =>
      rw [signatureOf_singleton] at hfuel ⊢
      obtain ⟨left, -, heq⟩ := cursorLoop_text t (.inl rfl) hfuel
      rw [List.append_nil] at heq
      rw [heq, List.tail_nil]
      cases left <;> simp [cursorLoop]
    | cons u tokens =>
      rw [signatureOf_cons_cons] at hfuel ⊢
      rw [List.length_append] at hfuel
      obtain ⟨left, hleft, heq⟩ := cursorLoop_text t (.inr ⟨_, rfl⟩) hfuel
      rw [heq, List.tail_cons, ih hleft]
      rfl

private theorem zero_notMem_signatureOf (tokens : List Token) : (0 : UInt8) ∉ signatureOf tokens := by
  have hzero : ∀ n, digitOf n ≠ 0 := fun n => (digitOf_spec n).2.2.2.2.2.2.2.1
  have htext : ∀ t : Token, (0 : UInt8) ∉ t.text := by
    intro t
    cases t with
    | any => decide
    | anyTwice => decide
    | byte high low => simp [Token.text, (hzero high).symm, (hzero low).symm]
  induction tokens with
  | nil => exact List.not_mem_nil
  | cons t tokens ih =>
    cases tokens with
    | nil =>
      rw [signatureOf_singleton]
      exact htext t
    | cons u tokens =>
      rw [signatureOf_cons_cons, List.mem_append, List.mem_cons]
      rintro (hfirst | hspace | hrest)
      · exact htext t hfirst
      · exact absurd hspace (by decide)
      · exact ih hrest

/-- The scan reads two cells for the doubled wildcard and one for any other token. -/
theorem patternToBytes_signatureOf (tokens : List Token) :
    patternToBytes (signatureOf tokens) = tokens.flatMap Token.cells := by
  have htext : (signatureOf tokens).takeWhile (· ≠ 0) = signatureOf tokens := by
    rw [List.takeWhile_eq_self_iff]
    intro c hc
    rw [decide_eq_true_eq]
    rintro rfl
    exact zero_notMem_signatureOf tokens hc
  rw [patternToBytes, htext]
  exact cursorLoop_signatureOf tokens le_rfl

end SlsteamMoon.Signatures
