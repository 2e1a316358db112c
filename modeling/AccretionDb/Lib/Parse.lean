import AccretionDb.Lib.Bytes

/-!
# Parsers

A parser walks a buffer from left to right and either answers and leaves the rest,
or fails.  `Reads p b a` says that `p` takes exactly the bytes `b` off the front,
whatever follows, and answers `a`; a format is a list of fields, and a parser that
reads the fields one by one reads their concatenation (`Reads.bind`).
-/

namespace CrashLogic

abbrev Parser (ε α : Type) := StateT Bytes (Except ε) α

namespace Parser

variable {ε α β : Type} {short : Nat → Nat → ε}

/-- Take `n` bytes; `short` is the error for `n` wanted bytes of which fewer are left. -/
def take (short : Nat → Nat → ε) (n : Nat) : Parser ε Bytes := fun b =>
  match takeBytes n b with
  | some x => .ok x
  | none => .error (short n b.length)

/-- A little-endian field of `w` bytes. -/
def nat (short : Nat → Nat → ε) (w : Nat) : Parser ε Nat := do
  let x ← take short w
  pure (leNat x)

/-- `n` times the same. -/
def times (p : Parser ε α) : Nat → Parser ε (List α)
  | 0 => pure []
  | n + 1 => do
    let a ← p
    let as ← times p n
    pure (a :: as)

/-- The same until nothing is left, at most `fuel` times. -/
def many (p : Parser ε α) : Nat → Bytes → Except ε (List α)
  | 0, _ => .ok []
  | fuel + 1, b =>
    if b = [] then .ok []
    else do
      let (a, rest) ← p b
      let as ← many p fuel rest
      pure (a :: as)

/-- The parser takes these bytes and answers this. -/
def Reads (p : Parser ε α) (b : Bytes) (a : α) : Prop := ∀ rest, p (b ++ rest) = .ok (a, rest)

namespace Reads

theorem pure (a : α) : Reads (pure a : Parser ε α) [] a := fun _ => rfl

/-- Behind a field the rest of the parser runs on the rest of the bytes. -/
theorem bind_apply {p : Parser ε α} {x : Bytes} {a : α} (hp : Reads p x a)
    (f : α → Parser ε β) (rest : Bytes) : (p >>= f) (x ++ rest) = f a rest := by
  have h : (p >>= f) (x ++ rest) = (p (x ++ rest)).bind fun r => f r.1 r.2 := rfl
  rw [h, hp]
  rfl

theorem bind {p : Parser ε α} {f : α → Parser ε β} {x y : Bytes} {a : α} {b : β}
    (hp : Reads p x a) (hf : Reads (f a) y b) : Reads (p >>= f) (x ++ y) b := by
  intro rest
  rw [List.append_assoc, hp.bind_apply]
  exact hf rest

theorem take {n : Nat} {x : Bytes} (h : x.length = n) : Reads (take short n) x x := by
  intro rest
  rw [Parser.take, ← h, takeBytes_append]

theorem nat {w n : Nat} (h : n < 256 ^ w) : Reads (nat short w) (leBytes w n) n := by
  have ht : Reads (Parser.take short w) (leBytes w n) (leBytes w n) := take (length_leBytes w n)
  have hp := ht.bind (f := fun x => (Pure.pure (leNat x) : Parser ε Nat)) (pure _)
  rw [List.append_nil, leNat_leBytes_of_lt h] at hp
  exact hp

/-- A field after which nothing is left to do but to answer. -/
theorem map {p : Parser ε α} {x : Bytes} {a : α} (hp : Reads p x a) (f : α → β) :
    Reads (p >>= fun a => Pure.pure (f a)) x (f a) := by
  have h := hp.bind (f := fun a => (Pure.pure (f a) : Parser ε β)) (pure _)
  rwa [List.append_nil] at h

theorem times {p : Parser ε α} {enc : α → Bytes} (as : List α)
    (h : ∀ a ∈ as, Reads p (enc a) a) : Reads (times p as.length) (as.flatMap enc) as := by
  induction as with
  | nil => exact pure []
  | cons a as ih =>
    rw [List.flatMap_cons]
    refine (h a List.mem_cons_self).bind ?_
    exact (ih fun x hx => h x (List.mem_cons_of_mem _ hx)).map (a :: ·)

theorem many {p : Parser ε α} {enc : α → Bytes} (as : List α)
    (h : ∀ a ∈ as, Reads p (enc a) a ∧ enc a ≠ []) :
    ∀ fuel, (as.flatMap enc).length ≤ fuel → many p fuel (as.flatMap enc) = .ok as := by
  induction as with
  | nil =>
    intro fuel _
    cases fuel <;> rfl
  | cons a as ih =>
    intro fuel hf
    obtain ⟨ha, hne⟩ := h a List.mem_cons_self
    rw [List.flatMap_cons] at hf ⊢
    have hpos : 0 < (enc a).length := List.length_pos_iff.mpr hne
    rw [List.length_append] at hf
    obtain ⟨fuel, rfl⟩ : ∃ n, fuel = n + 1 := ⟨fuel - 1, by omega⟩
    have hne' : enc a ++ as.flatMap enc ≠ [] := fun he => hne (List.append_eq_nil_iff.mp he).1
    rw [Parser.many, if_neg hne', ha]
    show (Parser.many p fuel (as.flatMap enc) >>= fun as => Pure.pure (a :: as)) = _
    rw [ih (fun x hx => h x (List.mem_cons_of_mem _ hx)) fuel (by omega)]
    rfl

/-- Nothing else is left. -/
theorem run {p : Parser ε α} {b : Bytes} {a : α} (h : Reads p b a) : p b = .ok (a, []) := by
  have := h []
  rwa [List.append_nil] at this

end Reads

/-! ### What a parser took -/

theorem bind_ok {p : Parser ε α} {f : α → Parser ε β} {b rest : Bytes} {x : β}
    (h : (p >>= f) b = .ok (x, rest)) : ∃ a mid, p b = .ok (a, mid) ∧ f a mid = .ok (x, rest) := by
  have hb : (p >>= f) b = (p b).bind fun r => f r.1 r.2 := rfl
  rw [hb] at h
  cases hp : p b with
  | error e =>
    rw [hp] at h
    cases h
  | ok r =>
    rw [hp] at h
    exact ⟨r.1, r.2, rfl, h⟩

theorem pure_ok {a x : α} {b rest : Bytes} (h : (pure a : Parser ε α) b = .ok (x, rest)) :
    a = x ∧ b = rest := by
  cases h
  exact ⟨rfl, rfl⟩

theorem take_ok {n : Nat} {b x rest : Bytes} (h : take short n b = .ok (x, rest)) :
    b = x ++ rest ∧ x.length = n := by
  rw [take] at h
  cases ht : takeBytes n b with
  | none =>
    rw [ht] at h
    cases h
  | some y =>
    rw [ht] at h
    cases h
    exact takeBytes_eq_some ht

theorem nat_ok {w n : Nat} {b rest : Bytes} (h : nat short w b = .ok (n, rest)) :
    b = leBytes w n ++ rest ∧ n < 256 ^ w := by
  obtain ⟨x, mid, hx, hn⟩ := bind_ok h
  obtain ⟨rfl, rfl⟩ := pure_ok hn
  obtain ⟨rfl, rfl⟩ := take_ok hx
  exact ⟨by rw [leBytes_leNat], leNat_lt x⟩

theorem times_ok {p : Parser ε α} {enc : α → Bytes} {P : α → Prop}
    (hp : ∀ b a rest, p b = .ok (a, rest) → b = enc a ++ rest ∧ P a) :
    ∀ {n : Nat} {b rest : Bytes} {as : List α}, times p n b = .ok (as, rest) →
      b = as.flatMap enc ++ rest ∧ as.length = n ∧ ∀ a ∈ as, P a := by
  intro n
  induction n with
  | zero =>
    intro b rest as h
    obtain ⟨rfl, rfl⟩ := pure_ok h
    exact ⟨rfl, rfl, fun _ ha => absurd ha List.not_mem_nil⟩
  | succ n ih =>
    intro b rest as h
    obtain ⟨a, mid, ha, h⟩ := bind_ok h
    obtain ⟨as', mid', has, h⟩ := bind_ok h
    obtain ⟨rfl, rfl⟩ := pure_ok h
    obtain ⟨rfl, hPa⟩ := hp _ _ _ ha
    obtain ⟨rfl, rfl, hPas⟩ := ih has
    refine ⟨?_, rfl, fun x hx => ?_⟩
    · rw [List.flatMap_cons, List.append_assoc]
    · rcases List.mem_cons.mp hx with rfl | hx
      · exact hPa
      · exact hPas x hx

theorem many_ok {p : Parser ε α} {enc : α → Bytes} {P : α → Prop}
    (hp : ∀ b a rest, p b = .ok (a, rest) → b = enc a ++ rest ∧ P a) (hne : ∀ a, enc a ≠ []) :
    ∀ {fuel : Nat} {b : Bytes} {as : List α}, b.length ≤ fuel → many p fuel b = .ok as →
      b = as.flatMap enc ∧ ∀ a ∈ as, P a := by
  intro fuel
  induction fuel with
  | zero =>
    intro b as hlen h
    cases h
    exact ⟨List.eq_nil_of_length_eq_zero (by omega), fun _ ha => absurd ha List.not_mem_nil⟩
  | succ fuel ih =>
    intro b as hlen h
    rw [many] at h
    by_cases hb : b = []
    · rw [if_pos hb] at h
      cases h
      exact ⟨hb, fun _ ha => absurd ha List.not_mem_nil⟩
    · rw [if_neg hb] at h
      cases hr : p b with
      | error e =>
        rw [hr] at h
        cases h
      | ok x =>
        obtain ⟨a, rest⟩ := x
        rw [hr] at h
        have hm : (many p fuel rest >>= fun as => pure (a :: as)) = .ok as := h
        obtain ⟨rfl, hPa⟩ := hp _ _ _ hr
        have hpos := List.length_pos_iff.mpr (hne a)
        rw [List.length_append] at hlen
        cases hrest : many p fuel rest with
        | error e =>
          rw [hrest] at hm
          cases hm
        | ok as' =>
          rw [hrest] at hm
          cases Except.ok.inj hm
          obtain ⟨rfl, hPas⟩ := ih (by omega) hrest
          refine ⟨rfl, fun x hx => ?_⟩
          rcases List.mem_cons.mp hx with rfl | hx
          · exact hPa
          · exact hPas x hx

theorem of_map_fst {p : Parser ε α} {b : Bytes} {a : α}
    (h : (p.run b).map Prod.fst = .ok a) : ∃ rest, p b = .ok (a, rest) := by
  change (p b).map Prod.fst = .ok a at h
  cases hr : p b with
  | error e =>
    rw [hr] at h
    cases h
  | ok x =>
    obtain ⟨a', rest⟩ := x
    rw [hr] at h
    cases Except.ok.inj h
    exact ⟨rest, rfl⟩

/-- **Exactly the buffers that begin with an encoding are accepted**, if the parser reads
what was encoded and takes nothing else. -/
theorem map_fst_ok_iff {p : Parser ε α} {enc : α → Bytes} {P : α → Prop}
    (hreads : ∀ a, P a → Reads p (enc a) a)
    (hp : ∀ b a rest, p b = .ok (a, rest) → b = enc a ++ rest ∧ P a) {b : Bytes} {a : α} :
    (p.run b).map Prod.fst = .ok a ↔ ∃ rest, b = enc a ++ rest ∧ P a := by
  constructor
  · intro h
    obtain ⟨rest, hr⟩ := of_map_fst h
    exact ⟨rest, hp b a rest hr⟩
  · rintro ⟨rest, rfl, hP⟩
    have hr : p.run (enc a ++ rest) = .ok (a, rest) := hreads a hP rest
    rw [hr]
    rfl

end Parser

end CrashLogic
