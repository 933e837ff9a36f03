import Tcio.Num

/-!
What the parsers accept and what number they give, against decimal notation.
-/
namespace Tcio
open Machine

namespace Num

/-- An ASCII digit. -/
def Digit (b : UInt8) : Prop := 48 ≤ b.toNat ∧ b.toNat ≤ 57

instance {b : UInt8} : Decidable (Digit b) := inferInstanceAs (Decidable (_ ∧ _))

/-- The number a digit stands for. -/
def digit (b : UInt8) : Nat := b.toNat-48
/-- The number that digits stand for, the last of them being the units. -/
def decimal (s : List UInt8) : Nat := Nat.ofDigits 10 (s.reverse.map digit)

/-! ### Decimal notation -/

theorem decimal_foldl {s : List UInt8} : decimal s = s.foldl (fun n b => n*10+digit b) 0 := by
  rw [decimal,Nat.ofDigits_eq_foldr,List.foldr_map,List.foldr_reverse]
  congr 1
  funext n b
  simp only [Nat.cast_id,mul_comm,add_comm]

theorem horner_cast {n : Nat} {ds : List Nat} :
    horner 10 (n : Int) (ds.map Nat.cast) = (ds.foldl (fun n d => n*10+d) n : Nat) := by
  induction ds generalizing n with
  | nil => rfl
  | cons d ds ih =>
    rw [List.map_cons,horner_cons,List.foldl_cons,← ih]
    norm_cast

theorem decimal_horner {s : List UInt8} : horner 10 0 (s.map fun b => (digit b : Int)) = decimal s := by
  have cast := @horner_cast 0 (s.map digit)
  rw [List.map_map,List.foldl_map] at cast
  rw [decimal_foldl]
  exact cast

theorem digit_lt {b : UInt8} (shape : Digit b) : digit b < 10 := by
  unfold Digit at shape
  unfold digit
  omega
theorem decimal_lt {s : List UInt8} (shape : ∀ b ∈ s, Digit b) : decimal s < 10^s.length := by
  have each : ∀ d ∈ s.reverse.map digit, d < 10 := by
    intro d mem
    obtain ⟨b,inside,rfl⟩ := List.mem_map.1 mem
    exact digit_lt (shape b (List.mem_reverse.1 inside))
  have bound := Nat.ofDigits_lt_base_pow_length (by decide) each
  rwa [List.length_map,List.length_reverse] at bound

/-! ### One byte -/

theorem wrapped {b : UInt8} : b-48 ≤ 9 ↔ Digit b := by
  have small := b.toNat_lt
  rw [UInt8.le_iff_toNat_le,UInt8.toNat_sub,Digit]
  simp only [UInt8.reduceToNat]
  omega
theorem toNat_wrapped {b : UInt8} (shape : Digit b) : (b-48).toNat = digit b := by
  have small := b.toNat_lt
  unfold Digit at shape
  rw [UInt8.toNat_sub,digit]
  simp only [UInt8.reduceToNat]
  omega

theorem toInt_toInt8 {b : UInt8} : b.toInt8.toInt = if b.toNat < 128 then (b.toNat : Int) else b.toNat-256 := by
  have bits := BitVec.toInt_eq_toNat_cond b.toBitVec
  change b.toInt8.toInt = _ at bits
  rw [bits,UInt8.toNat_toBitVec]
  split <;> split <;> omega
theorem toInt_wrapped {b : UInt8} (shape : Digit b) : (b-48).toInt8.toInt = digit b := by
  have small := digit_lt shape
  rw [toInt_toInt8,toNat_wrapped shape,if_pos (by omega)]
theorem signed_wrapped {b : UInt8} : 0 ≤ (b-48).toInt8 ∧ (b-48).toInt8 ≤ 9 ↔ Digit b := by
  have small := b.toNat_lt
  rw [Int8.le_iff_toInt_le,Int8.le_iff_toInt_le,toInt_toInt8,UInt8.toNat_sub,Digit]
  simp only [UInt8.reduceToNat,Int8.reduceToInt]
  split <;> omega

/-! ### Unsigned -/

theorem wrapping_atou_eq {s : List UInt8} :
    wrapping_atou s = if ∀ b ∈ s, Digit b then some (UInt64.ofNat (decimal s)) else none := by
  have fold (n : Nat) : (s.map fun b => (b-48).toUInt64).foldl (fun acc d => acc*10+d) (UInt64.ofNat n) =
      UInt64.ofNat (s.foldl (fun n b => n*10+(b-48).toNat) n) := by
    induction s generalizing n with
    | nil => rfl
    | cons b s ih =>
      have value : UInt64.ofNat n*10+(b-48).toUInt64 = UInt64.ofNat (n*10+(b-48).toNat) := by
        rw [← UInt64.toNat_inj,UInt64.toNat_add,UInt64.toNat_mul,UInt8.toNat_toUInt64]
        simp only [UInt64.toNat_ofNat',UInt64.reduceToNat]
        omega
      rw [List.map_cons,List.foldl_cons,List.foldl_cons,value,ih]
  rw [wrapping_atou,decimal_foldl]
  simp only [wrapped]
  rw [foldlM_kind Digit (fun b => (b-48).toUInt64) fun acc d => some (acc*10+d)]
  split
  · rename_i shape
    have same : s.foldl (fun n b => n*10+(b-48).toNat) 0 = s.foldl (fun n b => n*10+digit b) 0 := by
      apply List.foldl_ext
      intro n b mem
      rw [toNat_wrapped (shape b mem)]
    rw [← same,← fold]
    exact List.foldlM_pure
  · rfl

theorem digits_map {α : Type} [Machine α] {s : List UInt8} {f : UInt8 → α} {sign : Int}
    (value : ∀ b ∈ s, int (f b) = sign*digit b) : (s.map f).map int = (s.map fun b => (digit b : Int)).map (sign*·) := by
  rw [List.map_map,List.map_map]
  exact List.map_congr_left value
/-- The digits of a number, with its sign at each of them, checked at every step. -/
theorem checked_decimal {α : Type} [Machine α] {s : List UInt8} {f : UInt8 → α} {ten zero : α} {sign : Int} (unit : sign = 1 ∨ sign = -1)
    (value : ∀ b ∈ s, int (f b) = sign*digit b) (base : int ten = 10) (start : int zero = 0) :
    (s.map f).foldlM (checked_step ten) zero = fit (sign*decimal s) := by
  have same : ∀ d ∈ s.map f, 0 ≤ sign*int d := by
    intro d mem
    obtain ⟨b,inside,rfl⟩ := List.mem_map.1 mem
    rw [value b inside]
    rcases unit with rfl | rfl <;> omega
  have horner := @horner_mul 10 sign 0 (s.map fun b => (digit b : Int))
  rw [mul_zero,decimal_horner] at horner
  rw [checked_fold unit (by omega) (by rw [start,mul_zero]) same,base,start,digits_map value,horner]

theorem atou_eq {s : List UInt8} :
    atou s = if s.length > 20 ∨ s = [] then none
      else if ∀ b ∈ s, Digit b then fit (decimal s : Int) else none := by
  rw [atou,U64_MAX_CH]
  simp only [wrapped]
  split
  · rfl
  · have fold := @foldlM_kind _ _ Digit _ (fun b => (b-48).toUInt64) (checked_step 10) 0 s
    refine fold.trans ?_
    split
    · rename_i shape
      have value : ∀ b ∈ s, int (b-48).toUInt64 = 1*(digit b : Int) := by
        intro b mem
        rw [int_u64,UInt8.toNat_toUInt64,toNat_wrapped (shape b mem),one_mul]
      rw [checked_decimal (Or.inl rfl) value rfl rfl,one_mul]
    · rfl

/-! ### Signed -/

/-- The digit with the sign, in the type of the result. -/
def signed (sign : Int8) (b : UInt8) : Int64 := ((b-48).toInt8*sign).toInt64

theorem mul_digit {sign : Int8} {b : UInt8} (unit : sign.toInt = 1 ∨ sign.toInt = -1) (shape : Digit b) :
    mul (b-48).toInt8 sign = .ok ((b-48).toInt8*sign) ∧ int (signed sign b) = sign.toInt*digit b := by
  have small := digit_lt shape
  have value := toInt_wrapped shape
  have product : (b-48).toInt8.toInt*sign.toInt = sign.toInt*digit b := by rw [value,mul_comm]
  have inside : -2^7 ≤ sign.toInt*digit b ∧ sign.toInt*digit b < 2^7 := by
    rcases unit with one | one <;> rw [one] <;> omega
  have held : ((b-48).toInt8*sign).toInt = sign.toInt*digit b := by
    rw [Int8.toInt_mul,product]
    exact Int.bmod_eq_of_le (by omega) (by omega)
  constructor
  · rw [mul,checked_mul,int_i8,int_i8,product,← held,← int_i8,fit_int]
    rfl
  · rw [int_i64,signed,Int8.toInt_toInt64,held]

/-- No product overflows, and a step is the one of the checked reading. -/
theorem atoi_step_eq {sign : Int8} {acc : Int64} {b : UInt8} (unit : sign.toInt = 1 ∨ sign.toInt = -1) :
    atoi_step sign acc b = OptionT.mk (.ok (if Digit b then checked_step 10 acc (signed sign b) else none)) := by
  unfold atoi_step
  simp only [signed_wrapped]
  by_cases shape : Digit b
  · rw [if_pos shape,if_pos shape,(mul_digit unit shape).1,checked_step]
    cases checked_mul acc 10 <;> rfl
  · rw [if_neg shape,if_neg shape]
    rfl
theorem atoi_fold {sign : Int8} {s : List UInt8} (unit : sign.toInt = 1 ∨ sign.toInt = -1) :
    (s.foldlM (atoi_step sign) (0 : Int64)).run =
      .ok (if ∀ b ∈ s, Digit b then fit (sign.toInt*decimal s) else none) := by
  have pure (acc : Int64) : (s.foldlM (atoi_step sign) acc).run =
      .ok (s.foldlM (fun acc b => if Digit b then checked_step 10 acc (signed sign b) else none) acc) := by
    induction s generalizing acc with
    | nil => rfl
    | cons b s ih =>
      rw [List.foldlM_cons,List.foldlM_cons,atoi_step_eq unit]
      cases (if Digit b then checked_step 10 acc (signed sign b) else none) with
      | none => rfl
      | some next => exact ih next
  rw [pure,foldlM_kind Digit (signed sign) (checked_step 10)]
  split
  · rename_i shape
    rw [checked_decimal unit (fun b mem => (mul_digit unit (shape b mem)).2) rfl rfl]
  · rfl

theorem neg_sign {head : UInt8} (sign : head = 43 ∨ head = 45) :
    neg (head.toInt8-0x2C) = .ok (if head = 43 then 1 else -1) := by
  rcases sign with rfl | rfl <;> decide

/-! ### Numerals -/

/-- One or more digits. -/
def Digits (s : List UInt8) : Prop := s ≠ [] ∧ ∀ b ∈ s, Digit b

instance {s : List UInt8} : Decidable (Digits s) := inferInstanceAs (Decidable (_ ∧ _))

/-- The decimal numerals with at most one sign, and the number of each. -/
inductive Numeral : List UInt8 → Int → Prop
  | bare {s} : Digits s → Numeral s (decimal s)
  | plus {s} : Digits s → Numeral (43 :: s) (decimal s)
  | minus {s} : Digits s → Numeral (45 :: s) (-decimal s)

/-- The number of a numeral. -/
def numeral : List UInt8 → Option Int
  | [] => none
  | head :: rest =>
    if head = 43 then if Digits rest then some (decimal rest) else none
    else if head = 45 then if Digits rest then some (-decimal rest) else none
    else if Digits (head :: rest) then some (decimal (head :: rest)) else none

theorem numeral_iff {s : List UInt8} {v : Int} : numeral s = some v ↔ Numeral s v := by
  constructor
  · intro found
    cases s with
    | nil => cases found
    | cons head rest =>
      rw [numeral] at found
      split_ifs at found with plus shape minus shape shape
      · cases found
        exact plus ▸ .plus shape
      · cases found
        exact minus ▸ .minus shape
      · cases found
        exact .bare shape
  · rintro (shape | shape | shape)
    · cases s with
      | nil => exact absurd rfl shape.1
      | cons head rest =>
        have first := shape.2 head List.mem_cons_self
        have plus : head ≠ 43 := by rintro rfl; exact absurd first (by decide)
        have minus : head ≠ 45 := by rintro rfl; exact absurd first (by decide)
        rw [numeral,if_neg plus,if_neg minus,if_pos shape]
    · rw [numeral,if_pos rfl,if_pos shape]
    · rw [numeral,if_neg (by decide),if_pos rfl,if_pos shape]

theorem atoi_signed {head : UInt8} {rest : List UInt8} (sign : head = 43 ∨ head = 45) (short : ¬(head :: rest).length > 20)
    (more : rest ≠ []) : atoi (head :: rest) = (rest.foldlM (atoi_step (if head = 43 then 1 else -1)) (0 : Int64)).run := by
  rw [atoi,I64_MAX_CH,if_neg short]
  rw [if_pos sign,if_neg more,neg_sign sign]
  rfl
theorem atoi_bare {head : UInt8} {rest : List UInt8} (sign : ¬(head = 43 ∨ head = 45)) (short : ¬(head :: rest).length > 20) :
    atoi (head :: rest) = ((head :: rest).foldlM (atoi_step 1) (0 : Int64)).run := by
  rw [atoi,I64_MAX_CH,if_neg short]
  rw [if_neg sign]

theorem atoi_long {s : List UInt8} (long : s.length > 20) : atoi s = .ok none := by
  rw [atoi.eq_def,I64_MAX_CH,if_pos long]
theorem atoi_nil : atoi [] = .ok none := rfl
theorem atoi_alone {head : UInt8} (sign : head = 43 ∨ head = 45) : atoi [head] = .ok none := by
  rcases sign with rfl | rfl <;> rfl

theorem numeral_signed {head : UInt8} {rest : List UInt8} (sign : head = 43 ∨ head = 45) :
    numeral (head :: rest) = if Digits rest then some ((if head = 43 then 1 else -1)*(decimal rest : Int)) else none := by
  rcases sign with rfl | rfl
  · simp only [numeral,↓reduceIte,one_mul]
  · have minus : (45 : UInt8) ≠ 43 := by decide
    rw [numeral,if_neg minus,if_pos rfl,if_neg minus,neg_one_mul]
theorem numeral_bare {head : UInt8} {rest : List UInt8} (sign : ¬(head = 43 ∨ head = 45)) :
    numeral (head :: rest) = if Digits (head :: rest) then some (decimal (head :: rest) : Int) else none := by
  rw [numeral,if_neg fun plus => sign (Or.inl plus),if_neg fun minus => sign (Or.inr minus)]

theorem bind_if {p : Prop} [Decidable p] {v : Int} :
    (if p then some v else none).bind (fit : Int → Option Int64) = if p then fit v else none := by
  split <;> rfl

/-- `atoi` gives the number of a numeral that is no longer than the limit, where its type holds it. -/
theorem atoi_eq {s : List UInt8} : atoi s = .ok (if s.length > 20 then none else (numeral s).bind fit) := by
  by_cases short : s.length > 20
  · rw [atoi_long short,if_pos short]
  rw [if_neg short]
  cases s with
  | nil => exact atoi_nil
  | cons head rest =>
    by_cases sign : head = 43 ∨ head = 45
    · rw [numeral_signed sign,bind_if]
      by_cases empty : rest = []
      · rw [empty,atoi_alone sign,if_neg fun shape => shape.1 rfl]
      · have digits : Digits rest ↔ ∀ b ∈ rest, Digit b := ⟨And.right,fun shape => ⟨empty,shape⟩⟩
        rw [atoi_signed sign short empty]
        simp only [digits]
        rcases sign with rfl | rfl
        · exact atoi_fold (Or.inl (by decide))
        · exact atoi_fold (Or.inr (by decide))
    · have digits : Digits (head :: rest) ↔ ∀ b ∈ head :: rest, Digit b :=
        ⟨And.right,fun shape => ⟨List.cons_ne_nil _ _,shape⟩⟩
      have one : (1 : Int8).toInt = 1 := by decide
      rw [atoi_bare sign short,atoi_fold (Or.inl one),one,one_mul,numeral_bare sign,bind_if]
      simp only [digits]

/-! ### Rendering -/

/-- A number in decimal, without leading zeros. -/
def ascii (n : Nat) : List UInt8 :=
  if n = 0 then [48] else ((Nat.digits 10 n).map fun d => UInt8.ofNat (48+d)).reverse
/-- A signed number in decimal, perhaps with a plus and with zeros in front. -/
def rendering (plus : Bool) (zeros : Nat) (n : Int64) : List UInt8 :=
  (if n.toInt < 0 then [45] else if plus then [43] else []) ++ (List.replicate zeros 48 ++ ascii n.toInt.natAbs)

theorem toNat_ascii {d : Nat} (small : d < 10) : (UInt8.ofNat (48+d)).toNat = 48+d := by
  rw [UInt8.toNat_ofNat']
  omega

theorem digits_ascii {n : Nat} : Digits (ascii n) := by
  unfold ascii
  split
  · refine ⟨List.cons_ne_nil _ _,fun b mem => ?_⟩
    rw [List.mem_singleton.1 mem]
    decide
  · rename_i positive
    constructor
    · have some := Nat.digits_ne_nil_iff_ne_zero (b := 10).2 positive
      simpa using some
    · intro b mem
      obtain ⟨d,inside,rfl⟩ := List.mem_map.1 (List.mem_reverse.1 mem)
      have small := Nat.digits_lt_base (by decide) inside
      rw [Digit,toNat_ascii small]
      omega

theorem decimal_ascii {zeros n : Nat} : decimal (List.replicate zeros 48 ++ ascii n) = n := by
  have zero : digit 48 = 0 := rfl
  unfold decimal ascii
  rw [List.reverse_append,List.map_append,List.reverse_replicate,List.map_replicate,zero,Nat.ofDigits_append_replicate_zero]
  split
  · rename_i empty
    rw [empty]
    rfl
  · have same : (Nat.digits 10 n).map (digit ∘ fun d => UInt8.ofNat (48+d)) = Nat.digits 10 n := by
      refine (List.map_congr_left fun d inside => ?_).trans (List.map_id _)
      have small := Nat.digits_lt_base (by decide) inside
      rw [Function.comp_apply,digit,toNat_ascii small,Nat.add_sub_cancel_left,id_eq]
    rw [List.reverse_reverse,List.map_map,same,Nat.ofDigits_digits]

theorem length_ascii {n : Nat} (small : n < 10^19) : (ascii n).length ≤ 19 := by
  unfold ascii
  split
  · decide
  · rw [List.length_reverse,List.length_map]
    exact (Nat.digits_length_le_iff (by decide) n).2 small

theorem numeral_rendering {plus : Bool} {zeros : Nat} {n : Int64} : Numeral (rendering plus zeros n) n.toInt := by
  have shape : Digits (List.replicate zeros 48 ++ ascii n.toInt.natAbs) := by
    constructor
    · exact List.append_ne_nil_of_right_ne_nil _ digits_ascii.1
    · intro b mem
      rcases List.mem_append.1 mem with zero | digit
      · rw [List.eq_of_mem_replicate zero]
        decide
      · exact digits_ascii.2 b digit
  have value := @decimal_ascii zeros n.toInt.natAbs
  unfold rendering
  split
  · have minus := Numeral.minus shape
    rw [value] at minus
    have same : -(n.toInt.natAbs : Int) = n.toInt := by omega
    rwa [same] at minus
  · have same : (n.toInt.natAbs : Int) = n.toInt := by omega
    split
    · have signed := Numeral.plus shape
      rwa [value,same] at signed
    · have bare := Numeral.bare shape
      rwa [value,same] at bare

theorem length_rendering {plus : Bool} {n : Int64} : (rendering plus 0 n).length ≤ 20 := by
  have low := n.le_toInt
  have high := n.toInt_lt
  have digits := length_ascii (n := n.toInt.natAbs) (by omega)
  have sign : (if n.toInt < 0 then [45] else if plus then [43] else ([] : List UInt8)).length ≤ 1 := by
    split
    · decide
    · split <;> decide
  rw [rendering,List.length_append,List.length_append,List.length_replicate]
  omega

/-- `atoi` reads the numerals of at most twenty bytes whose number its type holds, and nothing else; no sign and
no digit makes an operator overflow; every number is read back from its renderings. -/
theorem atoi_exact :
    (∀ s : List UInt8, (∃ r, atoi s = .ok r) ∧
      ∀ v : Int, (∃ n : Int64, atoi s = .ok (some n) ∧ n.toInt = v) ↔
        s.length ≤ 20 ∧ Numeral s v ∧ -2^63 ≤ v ∧ v ≤ 2^63-1) ∧
    ∀ (n : Int64) (plus : Bool) (zeros : Nat), (rendering plus 0 n).length ≤ 20 ∧
      ((rendering plus zeros n).length ≤ 20 → atoi (rendering plus zeros n) = .ok (some n)) := by
  have reads {s : List UInt8} {n : Int64} : atoi s = .ok (some n) ↔ s.length ≤ 20 ∧ Numeral s n.toInt := by
    rw [atoi_eq,Except.ok.injEq,← numeral_iff]
    split
    · rename_i long
      simp only [reduceCtorEq,false_iff]
      omega
    · rename_i short
      rw [Option.bind_eq_some_iff]
      constructor
      · rintro ⟨v,found,fits⟩
        cases fit_iff.1 fits
        exact ⟨by omega,found⟩
      · rintro ⟨_,found⟩
        exact ⟨_,found,fit_iff.2 rfl⟩
  refine ⟨fun s => ⟨⟨_,atoi_eq⟩,fun v => ⟨?_,?_⟩⟩,fun n plus zeros => ⟨length_rendering,fun short => ?_⟩⟩
  · rintro ⟨n,read,rfl⟩
    obtain ⟨short,shape⟩ := reads.1 read
    have low := n.le_toInt
    have high := n.toInt_lt
    exact ⟨short,shape,low,by omega⟩
  · rintro ⟨short,shape,low,high⟩
    have value : (Int64.ofInt v).toInt = v := Int64.toInt_ofInt_of_le low (by omega)
    exact ⟨Int64.ofInt v,reads.2 ⟨short,value.symm ▸ shape⟩,value⟩
  · exact reads.2 ⟨short,numeral_rendering⟩
/-- The least number is read back. -/
theorem atoi_least : atoi (rendering false 0 Int64.minValue) = .ok (some Int64.minValue) :=
  (atoi_exact.2 Int64.minValue false 0).2 (by decide)

/-- The unchecked parser reads every row of digits, up to what wraps around; the checked one those of one to twenty
digits whose number its type holds; where the checked one cannot overflow or succeeds they agree. -/
theorem atou_exact (s : List UInt8) :
    (∀ n : UInt64, wrapping_atou s = some n ↔ (∀ b ∈ s, Digit b) ∧ n.toNat = decimal s % 2^64) ∧
    (∀ n : UInt64, atou s = some n ↔ 1 ≤ s.length ∧ s.length ≤ 20 ∧ (∀ b ∈ s, Digit b) ∧ decimal s < 2^64 ∧ n.toNat = decimal s) ∧
    (s ≠ [] → s.length ≤ 19 → wrapping_atou s = atou s) ∧
    ∀ n : UInt64, atou s = some n → wrapping_atou s = some n := by
  have wrapping (n : UInt64) : wrapping_atou s = some n ↔ (∀ b ∈ s, Digit b) ∧ n.toNat = decimal s % 2^64 := by
    rw [wrapping_atou_eq]
    split
    · rename_i shape
      rw [Option.some.injEq,← UInt64.toNat_inj,UInt64.toNat_ofNat',eq_comm]
      exact ⟨fun same => ⟨shape,same⟩,And.right⟩
    · rename_i other
      simp only [reduceCtorEq,false_iff]
      exact fun reads => other reads.1
  have checked (n : UInt64) : atou s = some n ↔
      1 ≤ s.length ∧ s.length ≤ 20 ∧ (∀ b ∈ s, Digit b) ∧ decimal s < 2^64 ∧ n.toNat = decimal s := by
    have small := n.toNat_lt
    rw [atou_eq]
    split
    · rename_i outside
      rw [← List.length_eq_zero_iff] at outside
      simp only [reduceCtorEq,false_iff]
      omega
    · rename_i inside
      rw [← List.length_eq_zero_iff] at inside
      split
      · rename_i shape
        rw [fit_iff,int_u64,Nat.cast_inj]
        exact ⟨fun same => ⟨by omega,by omega,shape,by omega,same⟩,fun reads => reads.2.2.2.2⟩
      · rename_i other
        simp only [reduceCtorEq,false_iff]
        exact fun reads => other reads.2.2.1
  have accepted (n : UInt64) (read : atou s = some n) : wrapping_atou s = some n := by
    obtain ⟨_,_,shape,fits,value⟩ := (checked n).1 read
    exact (wrapping n).2 ⟨shape,by rw [value,Nat.mod_eq_of_lt fits]⟩
  refine ⟨wrapping,checked,fun more short => ?_,accepted⟩
  by_cases shape : ∀ b ∈ s, Digit b
  · have bound : decimal s < 10^19 := lt_of_lt_of_le (decimal_lt shape) (Nat.pow_le_pow_right (by decide) short)
    have fits : decimal s < 2^64 := by omega
    have positive := List.length_pos_iff.2 more
    have value : (UInt64.ofNat (decimal s)).toNat = decimal s := by rw [UInt64.toNat_ofNat',Nat.mod_eq_of_lt fits]
    have read := (checked (UInt64.ofNat (decimal s))).2 ⟨positive,by omega,shape,fits,value⟩
    rw [read,accepted _ read]
  · rw [wrapping_atou_eq,if_neg shape,atou_eq,if_neg shape,ite_self]
/-- The two agree on a number of nineteen digits. -/
theorem atou_nines : wrapping_atou (List.replicate 19 57) = atou (List.replicate 19 57) :=
  (atou_exact (List.replicate 19 57)).2.2.1 (by decide) (by decide)

end Num
end Tcio
