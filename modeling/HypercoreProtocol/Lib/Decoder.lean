/-
Decoders on any input.

`Reads` in `Codec` says what a decoder does with bytes that were written for it.
Here it is about bytes that come from anywhere. What is asked of a decoder that is not
ours is `Shortens k`, which is about success only: it has left a suffix of its input, at
least `k` bytes shorter. It may also return an error, it may panic, and it may never come
back.

What such decoders make up is described by `Ends F k b r`: the decoder that was run on
`b` returned an error, or a value and a suffix of `b` that is at least `k` bytes shorter,
or it did not come back, and then because of `F` at a suffix of `b`. `Consumes F k` is
that for every input. It is kept by sequencing, where the bytes add up and the causes stay
what they were, so that a decoder which is put together from others needs no argument of
its own; and since `1` byte a round is enough for a loop to end, it is what the fuel of a
loop is measured in. `Local` is about the bytes that were taken: the decoder looked at
nothing behind them.
-/
import HypercoreProtocol.Lib.Codec

set_option autoImplicit false

namespace Rust

variable {ε ε' α β : Type} {P : α → Prop} {Q : β → Prop} {F F' : Abort → Prop}

/-- The call returned a value with `P`, or an error of its own; or it did not come back, and
`F` says why. -/
def Returns (F : Abort → Prop) (r : Res ε α) (P : α → Prop) : Prop :=
  (∃ x, r = .ok x ∧ P x) ∨ (∃ e, r = .error (.err e)) ∨ ∃ a, r = .error a.fault ∧ F a

theorem returns_ok {x : α} (h : P x) : Returns F (.ok x : Res ε α) P := Or.inl ⟨x, rfl, h⟩

theorem returns_err (e : ε) : Returns F (.error (.err e)) P := Or.inr (Or.inl ⟨e, rfl⟩)

/-- A function that stops for a cause that is allowed, and that counts as returning. -/
theorem returns_abort {a : Abort} (h : F a) : Returns F (.error a.fault : Res ε α) P :=
  Or.inr (Or.inr ⟨a, rfl, h⟩)

/-- Every call comes to one of the three ends, so that all there is to know is what holds at
the first and at the last. -/
theorem returns_of_cases {r : Res ε α} (hok : ∀ x, r = .ok x → P x)
    (habort : ∀ a : Abort, r = .error a.fault → F a) : Returns F r P := by
  match r with
  | .ok x => exact returns_ok (hok x rfl)
  | .error (.err e) => exact returns_err e
  | .error (.panic p) => exact returns_abort (a := .panic p) (habort (.panic p) rfl)
  | .error .out_of_fuel => exact returns_abort (a := .out_of_fuel) (habort .out_of_fuel rfl)

/-- The sequencing rule. What the first call returned is known as such to the second. -/
theorem Returns.bind {r : Res ε α} {f : α → Res ε β} (h : Returns F r P)
    (hf : ∀ x, r = .ok x → P x → Returns F (f x) Q) : Returns F (r >>= f) Q := by
  rcases h with ⟨x, rfl, hx⟩ | ⟨e, rfl⟩ | ⟨a, rfl, ha⟩
  · exact hf x rfl hx
  · exact returns_err e
  · exact returns_abort ha

/-- The rule of consequence: more results, and more causes. -/
theorem Returns.conseq {r : Res ε α} {P' : α → Prop} (h : Returns F r P)
    (himp : ∀ x, P x → P' x) (hcause : ∀ a, F a → F' a) : Returns F' r P' := by
  rcases h with ⟨x, hr, hx⟩ | h | ⟨a, hr, ha⟩
  · exact Or.inl ⟨x, hr, himp x hx⟩
  · exact Or.inr (Or.inl h)
  · exact Or.inr (Or.inr ⟨a, hr, hcause a ha⟩)

/-- Errors may be turned into others; whether the function comes back does not change. -/
theorem Returns.map_err {r : Res ε α} (h : Returns F r P) (f : ε → ε') :
    Returns F (Rust.map_err f r) P := by
  rcases h with ⟨x, rfl, hx⟩ | ⟨e, rfl⟩ | ⟨a, rfl, ha⟩
  · exact returns_ok hx
  · exact returns_err (f e)
  · rw [map_err_abort]
    exact returns_abort ha

end Rust

namespace Wire

open Rust

variable {ε ε' α β : Type} {j k : ℕ} {b rest : Bytes} {F : Bytes → Abort → Prop}

/-- On success the decoder has left a suffix of its input that is at least `k` bytes
shorter. Nothing is said about a call that does not succeed. -/
def Shortens (k : ℕ) (d : Bytes → Res ε (α × Bytes)) : Prop :=
  ∀ b x rest, d b = .ok (x, rest) → rest <:+ b ∧ rest.length + k ≤ b.length

/-- `F` holds at a suffix of `b`, which is where a decoder that started at `b` can be when
it calls another one. -/
def Along (F : Bytes → Abort → Prop) (b : Bytes) (a : Abort) : Prop := ∃ b', b' <:+ b ∧ F b' a

/-- A cause met on the way through a rest of the input is one met on the way through the input. -/
theorem Along.of_suffix {a : Abort} (h : Along F rest a) (hsuffix : rest <:+ b) :
    Along F b a := by
  obtain ⟨b', hb', hF⟩ := h
  exact ⟨b', hb'.trans hsuffix, hF⟩

/-- A call that was made further behind: a suffix of what is left is a suffix of the whole. -/
theorem returns_along {r : Res ε α} {P : α → Prop} (h : Returns (Along F rest) r P)
    (hsuffix : rest <:+ b) : Returns (Along F b) r P :=
  h.conseq (fun _ hx => hx) fun _ ha => ha.of_suffix hsuffix

/-- Run on `b`, a decoder gave `r`: an error, or a value and a suffix of `b` that is at least
`k` bytes shorter, or it did not come back because of `F` on the way. -/
def Ends (F : Bytes → Abort → Prop) (k : ℕ) (b : Bytes) (r : Res ε (α × Bytes)) : Prop :=
  Returns (Along F b) r fun x => x.2 <:+ b ∧ x.2.length + k ≤ b.length

/-- On every input the decoder ends, with at least `k` bytes taken if it succeeds, and otherwise
with an error or for a cause in `F`. -/
def Consumes (F : Bytes → Abort → Prop) (k : ℕ) (d : Bytes → Res ε (α × Bytes)) : Prop :=
  ∀ b, Ends F k b (d b)

/-- A decoder that is not ours, when `F` covers the calls of it that do not come back. -/
theorem Shortens.consumes {d : Bytes → Res ε (α × Bytes)} (h : Shortens k d)
    (hF : ∀ b (a : Abort), d b = .error a.fault → F b a) : Consumes F k d :=
  fun b => returns_of_cases (fun x hx => h b x.1 x.2 hx)
    fun a ha => ⟨b, List.suffix_refl b, hF b a ha⟩

/-- On success a decoder that consumes returns a shorter suffix, which is all that `Shortens`
asks. -/
theorem Consumes.shortens {d : Bytes → Res ε (α × Bytes)} (h : Consumes F k d) :
    Shortens k d := by
  intro b x rest hok
  rcases h b with ⟨y, hy, hrest⟩ | ⟨e, he⟩ | ⟨a, ha, -⟩
  · obtain rfl := Except.ok.inj (hok.symm.trans hy)
    exact hrest
  · cases hok.symm.trans he
  · cases hok.symm.trans ha

theorem ends_ok (x : α) (hsuffix : rest <:+ b) (hlen : rest.length + k ≤ b.length) :
    Ends F k b (.ok (x, rest) : Res ε (α × Bytes)) :=
  returns_ok ⟨hsuffix, hlen⟩

theorem ends_pure (x : α) (b : Bytes) : Ends F 0 b (pure (x, b) : Res ε (α × Bytes)) :=
  ends_ok x (List.suffix_refl b) (Nat.le_refl _)

theorem ends_throw (e : ε) : Ends F k b (throw (.err e) : Res ε (α × Bytes)) := returns_err e

/-- Fewer bytes may be promised than were taken, where it is enough to know that there was
one. -/
theorem Ends.mono {r : Res ε (α × Bytes)} (h : Ends F k b r) (hle : j ≤ k) : Ends F j b r :=
  h.conseq (fun _ hx => ⟨hx.1, by omega⟩) fun _ ha => ha

/-- A decoder that was run on what another one left, the bytes of both being counted. -/
theorem Ends.of_suffix {r : Res ε (α × Bytes)} (h : Ends F k rest r) (hsuffix : rest <:+ b)
    (hlen : rest.length + j ≤ b.length) : Ends F (j + k) b r :=
  h.conseq (fun _ hx => ⟨hx.1.trans hsuffix, by omega⟩) fun _ ha => ha.of_suffix hsuffix

/-- The sequencing rule: the bytes add up. With one byte in any part, a loop over the whole makes
progress. -/
theorem Ends.bind {r : Res ε (α × Bytes)} {f : α × Bytes → Res ε (β × Bytes)}
    (h : Ends F j b r) (hf : ∀ x rest, Ends F k rest (f (x, rest))) :
    Ends F (j + k) b (r >>= f) :=
  Returns.bind h fun x _ hx => (hf x.1 x.2).of_suffix hx.1 hx.2

/-- A value under another name. -/
theorem Ends.map {r : Res ε (α × Bytes)} (h : Ends F k b r) (f : α → β) :
    Ends F k b (r >>= fun x => pure (f x.1, x.2)) :=
  h.bind (k := 0) fun x rest => ends_pure (f x) rest

theorem Ends.ite {r r' : Res ε (α × Bytes)} {p : Prop} [Decidable p] (h : Ends F k b r)
    (h' : Ends F k b r') : Ends F k b (if p then r else r') := by
  split
  · exact h
  · exact h'

theorem Consumes.mono {d : Bytes → Res ε (α × Bytes)} (h : Consumes F k d) (hle : j ≤ k) :
    Consumes F j d := fun b => (h b).mono hle

/-- Two values one after the other take the bytes of both. -/
theorem Consumes.pair {c : Codec ε α} {d : Codec ε β} (hc : Consumes F j c.decode)
    (hd : Consumes F k d.decode) : Consumes F (j + k) (c.pair d).decode :=
  fun b => (hc b).bind fun x rest => (hd rest).map (Prod.mk x)

/-- A record takes the bytes of its fields. -/
theorem Consumes.map {c : Codec ε α} (hc : Consumes F k c.decode) (mk : α → β) (fields : β → α) :
    Consumes F k (c.map mk fields).decode :=
  fun b => (hc b).map mk

/-- An optional field takes nothing when it is not there, so that nothing can be promised for
it. -/
theorem Consumes.option {c : Codec ε α} (hc : Consumes F 0 c.decode) (present : Bool) :
    Consumes F 0 (c.decode_option present) := by
  intro b
  rw [Codec.decode_option]
  split
  · exact (hc b).map some
  · exact ends_pure _ _

/-- The rest of an input, as the input without what was taken. Decoders return the rest, and
callers slice by lengths: this is the link between the two. -/
theorem suffix_eq_drop (h : rest <:+ b) : rest = b.drop (b.length - rest.length) := by
  obtain ⟨taken, rfl⟩ := h
  rw [List.length_append, Nat.add_sub_cancel, List.drop_left]

/-! ## Decoders that look at what they take -/

/-- What the decoder took decides what it returned: the same bytes give the same value in
front of anything else. -/
def Local (d : Bytes → Res ε (α × Bytes)) : Prop :=
  ∀ b x rest, d b = .ok (x, rest) → ∃ taken, b = taken ++ rest ∧ Reads d taken x

/-- What takes nothing off the input is the same on every input, which is where composing local
decoders begins. -/
theorem local_pure (x : α) : Local fun b => (pure (x, b) : Res ε (α × Bytes)) := by
  intro b y rest h
  obtain ⟨rfl, rfl⟩ := Prod.mk.inj (Except.ok.inj h)
  exact ⟨[], rfl, fun _ => rfl⟩

theorem local_throw (e : ε) : Local fun _ => (throw (.err e) : Res ε (α × Bytes)) := by
  intro b y rest h
  cases h

/-- The sequencing rule: a local decoder, and then one that is local on what is left. -/
theorem Local.bind {d : Bytes → Res ε (α × Bytes)} {f : α × Bytes → Res ε (β × Bytes)}
    (hd : Local d) (hf : ∀ x, Local fun rest => f (x, rest)) : Local fun b => d b >>= f := by
  intro b y rest h
  obtain ⟨⟨x, rest₁⟩, hx, hy⟩ := bind_eq_ok h
  obtain ⟨t₁, rfl, h₁⟩ := hd _ _ _ hx
  obtain ⟨t₂, rfl, h₂⟩ := hf x _ _ _ hy
  refine ⟨t₁ ++ t₂, (List.append_assoc _ _ _).symm, fun s => ?_⟩
  show (d (t₁ ++ t₂ ++ s) >>= f) = _
  rw [List.append_assoc, h₁ (t₂ ++ s), ok_bind]
  exact h₂ s

theorem Local.map {d : Bytes → Res ε (α × Bytes)} (hd : Local d) (f : α → β) :
    Local fun b => d b >>= fun p => pure (f p.1, p.2) :=
  hd.bind fun x => local_pure (f x)

theorem Local.ite {d d' : Bytes → Res ε (α × Bytes)} (hd : Local d) (hd' : Local d') (p : Prop)
    [Decidable p] : Local fun b => if p then d b else d' b := by
  by_cases hp : p
  · simp only [if_pos hp]
    exact hd
  · simp only [if_neg hp]
    exact hd'

/-- Two values one after the other: the second is read from what the first leaves, which is as
much longer as the input is. -/
theorem Local.pair {c : Codec ε α} {d : Codec ε β} (hc : Local c.decode) (hd : Local d.decode) :
    Local (c.pair d).decode :=
  hc.bind fun a => hd.map (Prod.mk a)

theorem Local.under {c : Codec ε α} (hc : Local c.decode) (mk : α → β) (fields : β → α) :
    Local (c.map mk fields).decode :=
  hc.map mk

theorem Local.option {c : Codec ε α} (hc : Local c.decode) (present : Bool) :
    Local (c.decode_option present) :=
  (hc.map some).ite (local_pure none) _

/-- A decoder that used up its input does the same in front of anything. So a value that was
decoded from a slice is what stands at the front of the buffer. -/
theorem Local.reads {d : Bytes → Res ε (α × Bytes)} (hd : Local d) {b : Bytes} {x : α}
    (h : d b = .ok (x, [])) : Reads d b x := by
  obtain ⟨taken, hb, hreads⟩ := hd _ _ _ h
  rw [List.append_nil] at hb
  rwa [hb]

end Wire
