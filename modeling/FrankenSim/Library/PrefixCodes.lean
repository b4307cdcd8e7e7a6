import FrankenSim.Library.Words
import Mathlib.Data.Set.Prod
import Mathlib.Data.List.Flatten
import Mathlib.Order.SetNotation

/-!
# Fields that delimit themselves

An encoder delimits a set of values when texts that start with the codes of two
of them can only agree if the values agree, and the rest of the texts with
them. Codes of one length delimit; so do pairs, tagged alternatives and counted
sequences of delimiting codes, which is how a canonical serialization is read
back field by field.
-/
namespace FrankenSim.Library

variable {α β γ ι : Type*} {S : Set α} {T : Set γ} {e : α → List β} {f : γ → List β}

def Delimits (S : Set α) (e : α → List β) : Prop :=
  ∀ ⦃a⦄, a ∈ S → ∀ ⦃b⦄, b ∈ S → ∀ ⦃s t : List β⦄, e a ++ s = e b ++ t → a = b ∧ s = t

namespace Delimits

theorem injOn (h : Delimits S e) : Set.InjOn e S := by
  intro a ha b hb hab
  exact (h ha hb (congrArg (· ++ []) hab)).1

theorem mono {S' : Set α} (h : Delimits S e) (hsub : S' ⊆ S) : Delimits S' e :=
  fun _ ha _ hb _ _ heq => h (hsub ha) (hsub hb) heq

theorem of_length {n : ℕ} (hlength : ∀ a ∈ S, (e a).length = n) (hinj : Set.InjOn e S) :
    Delimits S e := by
  intro a ha b hb s t heq
  obtain ⟨hcode, hrest⟩ := List.append_inj heq ((hlength a ha).trans (hlength b hb).symm)
  exact ⟨hinj ha hb hcode, hrest⟩

/-- Reading a value through an injective view of it. -/
theorem comp {g : γ → α} (h : Delimits S e) (hmaps : Set.MapsTo g T S) (hinj : Set.InjOn g T) :
    Delimits T (e ∘ g) := by
  intro a ha b hb s t heq
  obtain ⟨hab, hrest⟩ := h (hmaps ha) (hmaps hb) heq
  exact ⟨hinj ha hb hab, hrest⟩

theorem append (he : Delimits S e) (hf : Delimits T f) :
    Delimits (S ×ˢ T) fun p : α × γ => e p.1 ++ f p.2 := by
  rintro ⟨a, c⟩ ⟨ha, hc⟩ ⟨b, d⟩ ⟨hb, hd⟩ s t heq
  simp only [List.append_assoc] at heq
  obtain ⟨rfl, hrest⟩ := he ha hb heq
  obtain ⟨rfl, hend⟩ := hf hc hd hrest
  exact ⟨rfl, hend⟩

/-- A terminator that is not in the text ends it. -/
theorem terminated (sep : β) : Delimits {l : List β | sep ∉ l} fun l => l ++ [sep] := by
  intro a
  induction a with
  | nil =>
    intro _ b hb s t heq
    cases b with
    | nil => exact ⟨rfl, (List.cons.inj heq).2⟩
    | cons x b =>
      obtain ⟨rfl, -⟩ := List.cons.inj heq
      exact absurd List.mem_cons_self hb
  | cons x a ih =>
    intro ha b hb s t heq
    cases b with
    | nil =>
      obtain ⟨rfl, -⟩ := List.cons.inj heq
      exact absurd List.mem_cons_self ha
    | cons y b =>
      obtain ⟨rfl, htail⟩ := List.cons.inj heq
      obtain ⟨rfl, hrest⟩ := ih (fun h => ha (List.mem_cons_of_mem _ h))
        (fun h => hb (List.mem_cons_of_mem _ h)) (show a ++ [sep] ++ s = b ++ [sep] ++ t from htail)
      exact ⟨rfl, hrest⟩

/-- A tag in front decides which alternative follows. -/
theorem tagged {tag : α → β} (h : ∀ k, Delimits {a ∈ S | tag a = k} e) :
    Delimits S fun a => tag a :: e a := by
  intro a ha b hb s t heq
  obtain ⟨htag, hrest⟩ := List.cons.inj heq
  exact h (tag b) ⟨ha, htag⟩ ⟨hb, rfl⟩ hrest

/-- Sequences of one length are read element by element. -/
theorem flatMap (h : Delimits S e) :
    ∀ {l m : List α}, (∀ a ∈ l, a ∈ S) → (∀ a ∈ m, a ∈ S) → l.length = m.length →
      ∀ {s t : List β}, l.flatMap e ++ s = m.flatMap e ++ t → l = m ∧ s = t := by
  intro l
  induction l with
  | nil =>
    intro m _ _ hlength s t heq
    obtain rfl := List.eq_nil_of_length_eq_zero hlength.symm
    exact ⟨rfl, by simpa using heq⟩
  | cons a l ih =>
    intro m hl hm hlength s t heq
    cases m with
    | nil => simp at hlength
    | cons b m =>
      simp only [List.flatMap_cons, List.append_assoc] at heq
      obtain ⟨rfl, hrest⟩ := h (hl a List.mem_cons_self) (hm b List.mem_cons_self) heq
      obtain ⟨rfl, hend⟩ := ih (fun x hx => hl x (List.mem_cons_of_mem _ hx))
        (fun x hx => hm x (List.mem_cons_of_mem _ hx)) (by simpa using hlength) hrest
      exact ⟨rfl, hend⟩

/-- A count in front tells how many elements follow. -/
theorem counted {C : Set ℕ} {count : ℕ → List β} (hcount : Delimits C count)
    (h : Delimits S e) :
    Delimits {l : List α | l.length ∈ C ∧ ∀ a ∈ l, a ∈ S} fun l =>
      count l.length ++ l.flatMap e := by
  rintro l ⟨hlC, hl⟩ m ⟨hmC, hm⟩ s t heq
  simp only [List.append_assoc] at heq
  obtain ⟨hlength, hrest⟩ := hcount hlC hmC heq
  exact h.flatMap hl hm hlength hrest

end Delimits

theorem foldl_append_eq_flatMap {push : List β → α → List β}
    (hpush : ∀ buf a, push buf a = buf ++ e a) (l : List α) (buf : List β) :
    l.foldl push buf = buf ++ l.flatMap e := by
  induction l generalizing buf with
  | nil => simp
  | cons a l ih => rw [List.foldl_cons, ih, hpush, List.flatMap_cons, List.append_assoc]

theorem length_leBytes (width n : ℕ) : (leBytes width n).length = width := by simp [leBytes]

theorem leBytes_succ (width n : ℕ) :
    leBytes (width + 1) n = leBytes width n ++ [UInt8.ofNat (n / 256 ^ width)] := by
  simp [leBytes, List.range_succ]

theorem mod_eq_of_leBytes {width n m : ℕ} (h : leBytes width n = leBytes width m) :
    n % 256 ^ width = m % 256 ^ width := by
  induction width with
  | zero => simp [Nat.mod_one]
  | succ width ih =>
    simp only [leBytes_succ] at h
    obtain ⟨hlow, hhigh⟩ := List.append_inj h (by simp [length_leBytes])
    have htop : n / 256 ^ width % 256 = m / 256 ^ width % 256 := by
      simpa [UInt8.toNat_ofNat'] using congrArg UInt8.toNat (List.singleton_inj.1 hhigh)
    rw [Nat.mod_pow_succ, Nat.mod_pow_succ, ih hlow, htop]

theorem delimits_leBytes (width : ℕ) : Delimits {n | n < 256 ^ width} (leBytes width) := by
  apply Delimits.of_length (n := width)
  · exact fun n _ => length_leBytes width n
  · intro n hn m hm h
    simpa [Nat.mod_eq_of_lt hn, Nat.mod_eq_of_lt hm] using mod_eq_of_leBytes h

end FrankenSim.Library
