import Mathlib.Data.List.TakeWhile

/-!
# JSON texts

A text reads back if what it was printed from can be told from it, whatever follows. Texts with
separators between them read back if each of them does, and so does the text of a JSON tree if the
texts of its numbers and strings do.
-/

namespace Lib

section Text

variable {α β : Type}

/-- What follows a text: nothing, or something with a first element that ends it. -/
def Stops (stop : β → Prop) (r : List β) : Prop := ∀ c ∈ r.head?, stop c

/-- The value `a` is the only one with its text, where that is followed by something that ends it.
-/
def ReadsBack (stop : β → Prop) (print : α → List β) (a : α) : Prop :=
  ∀ ⦃b r s⦄, Stops stop r → Stops stop s → print a ++ r = print b ++ s → a = b ∧ r = s

/-- Texts with `sep` between them. -/
def separated (sep : β) : List (List β) → List β
  | [] => []
  | [t] => t
  | t :: u :: ts => t ++ sep :: separated sep (u :: ts)

/-- What follows the first one of the texts `t :: ts` in a list that `close` ends. -/
def afterFirst (sep close : β) (ts : List (List β)) (r : List β) : List β :=
  match ts with
  | [] => close :: r
  | t :: ts => sep :: (separated sep (t :: ts) ++ close :: r)

theorem separated_cons_append (sep close : β) (t : List β) (ts : List (List β)) (r : List β) :
    separated sep (t :: ts) ++ close :: r = t ++ afterFirst sep close ts r := by
  cases ts with
  | nil => rfl
  | cons u ts => simp [separated, afterFirst]

variable {stop : β → Prop} {print : α → List β} {sep close : β}

theorem stops_afterFirst (hsep : stop sep) (hclose : stop close) (ts : List (List β))
    (r : List β) : Stops stop (afterFirst sep close ts r) := by
  intro c hc
  cases ts with
  | nil =>
    obtain rfl : close = c := by simpa [afterFirst] using hc
    exact hclose
  | cons t ts =>
    obtain rfl : sep = c := by simpa [afterFirst] using hc
    exact hsep

theorem cons_ne_print_append (hhead : ∀ b, (print b).head? ≠ some close) (hnil : ∀ b, print b ≠ [])
    (b : α) (t u : List β) : close :: t ≠ print b ++ u := by
  intro h
  cases hb : print b with
  | nil => exact hnil b hb
  | cons c t' =>
    rw [hb] at h
    exact hhead b (by rw [hb, (List.cons_eq_cons.mp h).1]; rfl)

/-- A closed list of texts reads back if its elements do. -/
theorem separated_readsBack {as bs : List α} {r s : List β}
    (h : ∀ a ∈ as, ReadsBack stop print a) (hhead : ∀ b, (print b).head? ≠ some close)
    (hnil : ∀ b, print b ≠ []) (hsep : stop sep) (hclose : stop close) (hne : sep ≠ close)
    (heq : separated sep (as.map print) ++ close :: r =
      separated sep (bs.map print) ++ close :: s) : as = bs ∧ r = s := by
  have hfirst := cons_ne_print_append hhead hnil
  induction as generalizing bs with
  | nil =>
    cases bs with
    | nil => exact ⟨rfl, (List.cons_eq_cons.mp heq).2⟩
    | cons b bs =>
      rw [List.map_cons, separated_cons_append] at heq
      exact absurd heq (hfirst b _ _)
  | cons a as ih =>
    cases bs with
    | nil =>
      rw [List.map_cons, separated_cons_append] at heq
      exact absurd heq.symm (hfirst a _ _)
    | cons b bs =>
      rw [List.map_cons, List.map_cons, separated_cons_append, separated_cons_append] at heq
      obtain ⟨rfl, hrest⟩ := h a List.mem_cons_self (stops_afterFirst hsep hclose _ _)
        (stops_afterFirst hsep hclose _ _) heq
      cases as with
      | nil =>
        cases bs with
        | nil => exact ⟨rfl, (List.cons_eq_cons.mp hrest).2⟩
        | cons b bs => exact absurd (List.cons_eq_cons.mp hrest).1.symm hne
      | cons a' as =>
        cases bs with
        | nil => exact absurd (List.cons_eq_cons.mp hrest).1 hne
        | cons b bs =>
          have htail : separated sep ((a' :: as).map print) ++ close :: r =
              separated sep ((b :: bs).map print) ++ close :: s := (List.cons_eq_cons.mp hrest).2
          obtain ⟨hall, hr⟩ := ih (fun x hx => h x (List.mem_cons_of_mem _ hx)) htail
          exact ⟨congrArg _ hall, hr⟩

/-- Texts one after another read back if each of them does. -/
theorem flatMap_readsBack {as bs : List α} {r s : List β}
    (h : ∀ a ∈ as, ReadsBack (fun _ => True) print a) (hhead : ∀ b, (print b).head? ≠ some close)
    (hnil : ∀ b, print b ≠ [])
    (heq : as.flatMap print ++ close :: r = bs.flatMap print ++ close :: s) : as = bs ∧ r = s := by
  have hfirst := cons_ne_print_append hhead hnil
  induction as generalizing bs with
  | nil =>
    cases bs with
    | nil => exact ⟨rfl, (List.cons_eq_cons.mp heq).2⟩
    | cons b bs =>
      rw [List.flatMap_cons, List.append_assoc] at heq
      exact absurd heq (hfirst b _ _)
  | cons a as ih =>
    cases bs with
    | nil =>
      rw [List.flatMap_cons, List.append_assoc] at heq
      exact absurd heq.symm (hfirst a _ _)
    | cons b bs =>
      rw [List.flatMap_cons, List.flatMap_cons, List.append_assoc, List.append_assoc] at heq
      obtain ⟨rfl, hrest⟩ := h a List.mem_cons_self (fun _ _ => trivial) (fun _ _ => trivial) heq
      obtain ⟨rfl, hr⟩ := ih (fun x hx => h x (List.mem_cons_of_mem _ hx)) hrest
      exact ⟨rfl, hr⟩

/-- Different texts that are made of elements that do not end them read back. -/
theorem readsBack_of_all {p : β → Bool} (hp : ∀ c, stop c → p c = false)
    (hall : ∀ a, ∀ c ∈ print a, p c = true) (hinj : ∀ a b, print a = print b → a = b) (a : α) :
    ReadsBack stop print a := by
  intro b r s hr hs heq
  have hrest {r : List β} (hr : Stops stop r) : r.takeWhile p = [] := by
    cases r with
    | nil => rfl
    | cons c r => rw [List.takeWhile_cons, if_neg (by simp [hp c (hr c rfl)])]
  have hspan := congrArg (List.takeWhile p) heq
  rw [List.takeWhile_append_of_pos (hall a), List.takeWhile_append_of_pos (hall b), hrest hr,
    hrest hs, List.append_nil, List.append_nil] at hspan
  obtain rfl := hinj a b hspan
  exact ⟨rfl, List.append_cancel_left heq⟩

end Text

/-! ## Trees -/

/-- A JSON document with numbers in `ν` and strings in `σ`. The members of an object are ordered. -/
inductive JsonTree (ν σ : Type) where
  | null
  | bool (b : Bool)
  | number (n : ν)
  | string (s : σ)
  | array (elems : List (JsonTree ν σ))
  | object (members : List (σ × JsonTree ν σ))

/-- The texts of numbers and strings, in UTF-16 code units. -/
structure JsonCode (ν σ : Type) where
  number : ν → List UInt16
  string : σ → List UInt16

/-- A digit, or one of `+`, `-`, `.` and `e`. -/
def isNumberChar (c : UInt16) : Bool :=
  c == 43 || c == 45 || c == 46 || (48 ≤ c && c ≤ 57) || c == 101

/-- Numbers and strings can be told from their texts. -/
structure JsonCode.Readable {ν σ : Type} (code : JsonCode ν σ) : Prop where
  number : ∀ n, ReadsBack (isNumberChar · = false) code.number n
  numberHead : ∀ n, ∃ c t, code.number n = c :: t ∧ isNumberChar c = true
  string : ∀ s, ReadsBack (fun _ => True) code.string s
  stringHead : ∀ s, ∃ t, code.string s = 34 :: t

namespace JsonTree

variable {ν σ : Type} {code : JsonCode ν σ}

/-- Induction over a tree with its elements and members. -/
@[elab_as_elim]
theorem induction_on {P : JsonTree ν σ → Prop} (null : P .null) (bool : ∀ b, P (.bool b))
    (number : ∀ n, P (.number n)) (string : ∀ s, P (.string s))
    (array : ∀ elems, (∀ t ∈ elems, P t) → P (.array elems))
    (object : ∀ members, (∀ m ∈ members, P m.2) → P (.object members)) (t : JsonTree ν σ) :
    P t := by
  refine @JsonTree.rec ν σ P (fun ts => ∀ t ∈ ts, P t) (fun ms => ∀ m ∈ ms, P m.2)
    (fun m => P m.2) null bool number string array object ?_ ?_ ?_ ?_ ?_ t
  · simp
  · intro t ts ht hts
    simpa using ⟨ht, hts⟩
  · simp
  · intro m ms hm hms
    simpa using ⟨hm, fun a b hab => hms (a, b) hab⟩
  · intro k t ht
    exact ht

mutual

/-- The text of a tree, without blanks. -/
def print (code : JsonCode ν σ) : JsonTree ν σ → List UInt16
  | .null => [110, 117, 108, 108]
  | .bool true => [116, 114, 117, 101]
  | .bool false => [102, 97, 108, 115, 101]
  | .number n => code.number n
  | .string s => code.string s
  | .array elems => 91 :: (separated 44 (printElems code elems) ++ [93])
  | .object members => 123 :: (separated 44 (printMembers code members) ++ [125])

/-- The texts of elements. -/
def printElems (code : JsonCode ν σ) : List (JsonTree ν σ) → List (List UInt16)
  | [] => []
  | t :: ts => print code t :: printElems code ts

/-- The texts of members. -/
def printMembers (code : JsonCode ν σ) : List (σ × JsonTree ν σ) → List (List UInt16)
  | [] => []
  | (k, t) :: ms => (code.string k ++ 58 :: print code t) :: printMembers code ms

end

/-- The text of a member. -/
def printMember (code : JsonCode ν σ) (m : σ × JsonTree ν σ) : List UInt16 :=
  code.string m.1 ++ 58 :: print code m.2

theorem printElems_eq (ts : List (JsonTree ν σ)) : printElems code ts = ts.map (print code) := by
  induction ts with
  | nil => rfl
  | cons t ts ih => rw [printElems, ih, List.map_cons]

theorem printMembers_eq (ms : List (σ × JsonTree ν σ)) :
    printMembers code ms = ms.map (printMember code) := by
  induction ms with
  | nil => rfl
  | cons m ms ih => rw [printMembers, ih, List.map_cons, printMember]

/-- The kind of a tree, as far as its first code unit tells. -/
def kind : JsonTree ν σ → ℕ
  | .null => 0
  | .bool true => 1
  | .bool false => 2
  | .number _ => 3
  | .string _ => 4
  | .array _ => 5
  | .object _ => 6

/-- The kind of the trees with the first code unit `c`. -/
def kindOf (c : UInt16) : ℕ :=
  if c = 110 then 0 else if c = 116 then 1 else if c = 102 then 2
  else if isNumberChar c then 3
  else if c = 34 then 4 else if c = 91 then 5 else if c = 123 then 6 else 7

theorem kindOf_isNumberChar {c : UInt16} (h : isNumberChar c = true) : kindOf c = 3 := by
  have hne {d : UInt16} (hd : isNumberChar d = false) : c ≠ d := by
    rintro rfl
    rw [h] at hd
    cases hd
  rw [kindOf, if_neg (hne (by decide)), if_neg (hne (by decide)), if_neg (hne (by decide)), if_pos h]

theorem exists_head (hcode : code.Readable) (t : JsonTree ν σ) :
    ∃ c r, print code t = c :: r ∧ kindOf c = t.kind := by
  cases t with
  | null => exact ⟨_, _, rfl, show kindOf 110 = 0 by decide⟩
  | bool b =>
    cases b with
    | true => exact ⟨_, _, rfl, show kindOf 116 = 1 by decide⟩
    | false => exact ⟨_, _, rfl, show kindOf 102 = 2 by decide⟩
  | number n =>
    obtain ⟨c, r, hn, hc⟩ := hcode.numberHead n
    exact ⟨c, r, hn, kindOf_isNumberChar hc⟩
  | string s =>
    obtain ⟨r, hs⟩ := hcode.stringHead s
    exact ⟨34, r, hs, show kindOf 34 = 4 by decide⟩
  | array elems => exact ⟨_, _, rfl, show kindOf 91 = 5 by decide⟩
  | object members => exact ⟨_, _, rfl, show kindOf 123 = 6 by decide⟩

/-- Trees with one text are of one kind. -/
theorem kind_eq_of_print (hcode : code.Readable) {t u : JsonTree ν σ} {r s : List UInt16}
    (h : print code t ++ r = print code u ++ s) : t.kind = u.kind := by
  obtain ⟨c, r', ht, hc⟩ := exists_head hcode t
  obtain ⟨d, s', hu, hd⟩ := exists_head hcode u
  rw [ht, hu] at h
  rw [← hc, ← hd, (List.cons_eq_cons.mp h).1]

theorem print_head_ne (hcode : code.Readable) {c : UInt16} (hc : kindOf c = 7)
    (t : JsonTree ν σ) : (print code t).head? ≠ some c := by
  obtain ⟨d, r, ht, hd⟩ := exists_head hcode t
  rw [ht]
  rintro h
  obtain rfl : d = c := by simpa using h
  rw [hd] at hc
  cases t with
  | bool b => cases b <;> cases hc
  | _ => cases hc

theorem print_ne_nil (hcode : code.Readable) (t : JsonTree ν σ) : print code t ≠ [] := by
  obtain ⟨c, r, ht, -⟩ := exists_head hcode t
  rw [ht]
  exact List.cons_ne_nil c r

theorem printMember_cons (hcode : code.Readable) (m : σ × JsonTree ν σ) :
    ∃ r, printMember code m = 34 :: r := by
  obtain ⟨r, hs⟩ := hcode.stringHead m.1
  exact ⟨_, by rw [printMember, hs]; rfl⟩

theorem printMember_readsBack (hcode : code.Readable) {m : σ × JsonTree ν σ}
    (h : ReadsBack (isNumberChar · = false) (print code) m.2) :
    ReadsBack (isNumberChar · = false) (printMember code) m := by
  rintro ⟨k, u⟩ r s hr hs heq
  simp only [printMember, List.append_assoc, List.cons_append] at heq
  obtain ⟨hk, hrest⟩ := hcode.string m.1 (fun _ _ => trivial) (fun _ _ => trivial) heq
  obtain ⟨ht, hrs⟩ := h hr hs (List.cons_eq_cons.mp hrest).2
  exact ⟨Prod.ext hk ht, hrs⟩

/-- A tree reads back from its text. -/
theorem readsBack (hcode : code.Readable) (t : JsonTree ν σ) :
    ReadsBack (isNumberChar · = false) (print code) t := by
  induction t using induction_on with
  | null =>
    intro u r s _ _ heq
    have hkind := kind_eq_of_print hcode heq
    cases u with
    | null => exact ⟨rfl, List.append_cancel_left heq⟩
    | bool b => cases b <;> cases hkind
    | _ => cases hkind
  | bool b =>
    intro u r s _ _ heq
    have hkind := kind_eq_of_print hcode heq
    cases u with
    | bool b' =>
      obtain rfl : b = b' := by cases b <;> cases b' <;> first | rfl | cases hkind
      exact ⟨rfl, List.append_cancel_left heq⟩
    | _ => cases b <;> cases hkind
  | number n =>
    intro u r s hr hs heq
    have hkind := kind_eq_of_print hcode heq
    cases u with
    | number m =>
      obtain ⟨rfl, hrs⟩ := hcode.number n hr hs heq
      exact ⟨rfl, hrs⟩
    | bool b => cases b <;> cases hkind
    | _ => cases hkind
  | string k =>
    intro u r s _ _ heq
    have hkind := kind_eq_of_print hcode heq
    cases u with
    | string l =>
      obtain ⟨rfl, hrs⟩ := hcode.string k (fun _ _ => trivial) (fun _ _ => trivial) heq
      exact ⟨rfl, hrs⟩
    | bool b => cases b <;> cases hkind
    | _ => cases hkind
  | array elems ih =>
    intro u r s _ _ heq
    have hkind := kind_eq_of_print hcode heq
    cases u with
    | array elems' =>
      simp only [print, printElems_eq, List.cons_append, List.append_assoc, List.nil_append] at heq
      obtain ⟨rfl, hrs⟩ := separated_readsBack ih (print_head_ne hcode (by decide))
        (print_ne_nil hcode) (by decide) (by decide) (by decide) (List.cons_eq_cons.mp heq).2
      exact ⟨rfl, hrs⟩
    | bool b => cases b <;> cases hkind
    | _ => cases hkind
  | object members ih =>
    intro u r s _ _ heq
    have hkind := kind_eq_of_print hcode heq
    cases u with
    | object members' =>
      simp only [print, printMembers_eq, List.cons_append, List.append_assoc,
        List.nil_append] at heq
      have hfirst (m : σ × JsonTree ν σ) : (printMember code m).head? ≠ some 125 := by
        obtain ⟨r, hm⟩ := printMember_cons hcode m
        rw [hm, List.head?_cons]
        exact fun h => absurd (Option.some.inj h) (by decide)
      have hnil (m : σ × JsonTree ν σ) : printMember code m ≠ [] := by
        obtain ⟨r, hm⟩ := printMember_cons hcode m
        rw [hm]
        exact List.cons_ne_nil _ _
      obtain ⟨rfl, hrs⟩ := separated_readsBack
        (fun m hm => printMember_readsBack hcode (ih m hm)) hfirst hnil (by decide) (by decide)
        (by decide) (List.cons_eq_cons.mp heq).2
      exact ⟨rfl, hrs⟩
    | bool b => cases b <;> cases hkind
    | _ => cases hkind

/-- Different trees have different texts. -/
theorem print_injective (hcode : code.Readable) {t u : JsonTree ν σ}
    (h : print code t = print code u) : t = u := by
  have hnil : Stops (isNumberChar · = false) [] := fun c hc => by cases hc
  exact (readsBack hcode t hnil hnil (congrArg (· ++ []) h)).1

end JsonTree

end Lib
