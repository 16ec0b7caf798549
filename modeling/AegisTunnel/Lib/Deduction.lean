import Mathlib.Data.Sym.Sym2
import Mathlib.Tactic

/-! Symbolic messages and what can be deduced from them. Keys are names, a Diffie-Hellman product is the
    unordered pair of its names, and everything else is a free term. A deduction uses the operations that
    anyone can compute; an invariant of terms that all of them keep bounds what they reach. -/

namespace Deduction
variable {κ α : Type}

inductive Term (κ α : Type) where
  | lit (a : α)
  | priv (k : κ)
  | pub (k : κ)
  | dh (s : Sym2 κ)
  | hash (t : Term κ α)
  | cat (t u : Term κ α)
  | half (second : Bool) (t : Term κ α)
  | enc (key ad payload : Term κ α)

/-- What can be deduced from the terms in `K`. -/
inductive Derives (K : Set (Term κ α)) : Term κ α → Prop where
  | known {t : Term κ α} (h : t ∈ K) : Derives K t
  | lit (a : α) : Derives K (.lit a)
  | pub {k : κ} (h : Derives K (.priv k)) : Derives K (.pub k)
  | dh {k l : κ} (hk : Derives K (.priv k)) (hl : Derives K (.pub l)) : Derives K (.dh s(k, l))
  | hash {t : Term κ α} (h : Derives K t) : Derives K (.hash t)
  | cat {t u : Term κ α} (ht : Derives K t) (hu : Derives K u) : Derives K (.cat t u)
  | left {t u : Term κ α} (h : Derives K (.cat t u)) : Derives K t
  | right {t u : Term κ α} (h : Derives K (.cat t u)) : Derives K u
  | half {t : Term κ α} (second : Bool) (h : Derives K t) : Derives K (.half second t)
  | enc {key ad payload : Term κ α} (hk : Derives K key) (ha : Derives K ad) (hp : Derives K payload) :
      Derives K (.enc key ad payload)
  | dec {key ad payload : Term κ α} (hc : Derives K (.enc key ad payload)) (hk : Derives K key) : Derives K payload

variable {K : Set (Term κ α)} {t : Term κ α}

/-- The other party's private key gives the same product. -/
theorem Derives.dh_symm {k l : κ} (hk : Derives K (.pub k)) (hl : Derives K (.priv l)) : Derives K (.dh s(k, l)) := by
  rw [Sym2.eq_swap]
  exact .dh hl hk

/-- The private keys in `S` and the products of two keys in `S` cannot be taken out of the term by
    splitting or decryption. -/
def Guards (S : Set κ) : Term κ α → Prop
  | .lit _ => True
  | .priv k => k ∉ S
  | .pub _ => True
  | .dh s => ¬ ∀ k ∈ s, k ∈ S
  | .hash _ => True
  | .cat t u => Guards S t ∧ Guards S u
  | .half _ _ => True
  | .enc _ _ payload => Guards S payload

/-- From terms that guard the private keys in `S`, only such terms can be deduced. -/
theorem Derives.guards {S : Set κ} (start : ∀ t ∈ K, Guards S t) (h : Derives K t) : Guards S t := by
  induction h with
  | known h => exact start _ h
  | lit a => trivial
  | pub h ih => trivial
  | dh hk hl ihk ihl => exact fun all => ihk (all _ (Sym2.mem_mk_left ..))
  | hash h ih => trivial
  | cat ht hu iht ihu => exact ⟨iht, ihu⟩
  | left h ih => exact ih.1
  | right h ih => exact ih.2
  | half second h ih => trivial
  | enc hk ha hp ihk iha ihp => exact ihp
  | dec hc hk ihc ihk => exact ihc

theorem not_derives_priv {S : Set κ} (start : ∀ t ∈ K, Guards S t) {k : κ} (hk : k ∈ S) : ¬ Derives K (.priv k) :=
  fun h => h.guards start hk

theorem not_derives_dh {S : Set κ} (start : ∀ t ∈ K, Guards S t) {k l : κ} (hk : k ∈ S) (hl : l ∈ S) :
    ¬ Derives K (.dh s(k, l)) := by
  intro h
  refine h.guards start fun m hm => ?_
  rcases Sym2.mem_iff.mp hm with rfl | rfl
  · exact hk
  · exact hl

/-- The term is the product `p` or one of its private keys, or is computed from one of these. -/
def Tainted (p : Sym2 κ) : Term κ α → Prop
  | .lit _ => False
  | .priv k => k ∈ p
  | .pub _ => False
  | .dh s => s = p
  | .hash t => Tainted p t
  | .cat t u => Tainted p t ∨ Tainted p u
  | .half _ t => Tainted p t
  | .enc _ _ payload => Tainted p payload

/-- Who has nothing that depends on the product cannot deduce anything that depends on it. -/
theorem Derives.untainted {p : Sym2 κ} (start : ∀ t ∈ K, ¬ Tainted p t) (h : Derives K t) : ¬ Tainted p t := by
  induction h with
  | known h => exact start _ h
  | lit a => exact id
  | pub h ih => exact id
  | dh hk hl ihk ihl =>
    rintro rfl
    exact ihk (Sym2.mem_mk_left ..)
  | hash h ih => exact ih
  | cat ht hu iht ihu => exact fun either => either.elim iht ihu
  | left h ih => exact fun ht => ih (.inl ht)
  | right h ih => exact fun hu => ih (.inr hu)
  | half second h ih => exact ih
  | enc hk ha hp ihk iha ihp => exact ihp
  | dec hc hk ihc ihk => exact ihc

/-- Values for the terms: of keys and products, and the operations. -/
structure Interp (κ α β : Type) where
  lit : α → β
  priv : κ → β
  pub : κ → β
  dh : Sym2 κ → β
  hash : β → β
  cat : β → β → β
  half : Bool → β → β
  enc : β → β → β → β

def Interp.eval {β : Type} (I : Interp κ α β) : Term κ α → β
  | .lit a => I.lit a
  | .priv k => I.priv k
  | .pub k => I.pub k
  | .dh s => I.dh s
  | .hash t => I.hash (I.eval t)
  | .cat t u => I.cat (I.eval t) (I.eval u)
  | .half second t => I.half second (I.eval t)
  | .enc key ad payload => I.enc (I.eval key) (I.eval ad) (I.eval payload)

end Deduction
