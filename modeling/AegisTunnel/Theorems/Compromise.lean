import AegisTunnel.Lib.Deduction
import AegisTunnel.Theorems.Secrecy

/-! Which private keys give the session keys away: of each of the three products that go into them, one of the
    two private keys is needed, and these are enough. -/

namespace AegisTunnel
open Octets Deduction

namespace Symbolic

/-- The transcript, the public keys of both parties, and the private keys with the names in `lost`. -/
def exposed (lost : Set KeyName) (tc ts : Int64) : Set Message :=
  transcript tc ts ∪ {.pub .client, .pub .server} ∪ Set.image Term.priv lost

section
variable {lost : Set KeyName} {tc ts : Int64}

theorem derives_pub (lost : Set KeyName) (tc ts : Int64) (k : KeyName) : Derives (exposed lost tc ts) (.pub k) := by
  refine .known (.inl ?_)
  cases k with
  | client => exact .inr (.inl rfl)
  | server => exact .inr (.inr rfl)
  | clientEph => exact .inl (.inl rfl)
  | serverEph => exact .inl (.inr (.inr (.inl rfl)))

theorem derives_priv {k : KeyName} (h : k ∈ lost) : Derives (exposed lost tc ts) (.priv k) :=
  .known (.inr (Set.mem_image_of_mem _ h))

/-- One of the two private keys gives their product. -/
theorem derives_product {k l : KeyName} (h : k ∈ lost ∨ l ∈ lost) : Derives (exposed lost tc ts) (.dh s(k, l)) := by
  rcases h with h | h
  · exact .dh (derives_priv h) (derives_pub lost tc ts l)
  · exact .dh_symm (derives_pub lost tc ts k) (derives_priv h)

theorem derives_session_of (tr : Transport) (ephStatic : .clientEph ∈ lost ∨ .server ∈ lost)
    (staticStatic : .client ∈ lost ∨ .server ∈ lost) (staticEph : .client ∈ lost ∨ .serverEph ∈ lost) :
    Derives (exposed lost tc ts) (session tr) := by
  have products : Derives (exposed lost tc ts) (.cat (.cat ee es) se) :=
    .cat (.cat (.hash (derives_product ephStatic)) (.hash (derives_product staticStatic)))
      (.hash (derives_product staticEph))
  have hshared : Derives (exposed lost tc ts) shared := .hash (.cat products (.lit _))
  cases tr with
  | tcp => exact .hash (.cat (.cat (.cat hshared (derives_pub ..)) (derives_pub ..)) (.lit _))
  | udp => exact .hash (.cat hshared (.lit _))

/-- The ciphertexts carry timestamps only. -/
theorem untainted_exposed {k l : KeyName} (hk : k ∉ lost) (hl : l ∉ lost) :
    ∀ t ∈ exposed lost tc ts, ¬ Tainted s(k, l) t := by
  rintro t ((known | known) | ⟨m, hm, rfl⟩)
  · rcases known with rfl | rfl | rfl | rfl <;> exact id
  · rcases known with rfl | rfl <;> exact id
  · intro mem
    rcases Sym2.mem_iff.mp mem with rfl | rfl
    · exact hk hm
    · exact hl hm

/-- Each of the three products goes into the session keys. -/
theorem tainted_session (tr : Transport) {p : Sym2 KeyName}
    (h : p ∈ [s(.clientEph, .server), s(.client, .server), s(.client, .serverEph)]) : Tainted p (session tr) := by
  have products : Tainted p (Term.cat (Term.cat ee es) se : Message) := by
    simp only [List.mem_cons, List.not_mem_nil, or_false] at h
    rcases h with rfl | rfl | rfl
    · exact .inl (.inl rfl)
    · exact .inl (.inr rfl)
    · exact .inr rfl
  have hshared : Tainted p shared := .inl products
  cases tr with
  | tcp => exact .inl (.inl (.inl hshared))
  | udp => exact .inl hshared

/-- Of each product one of the private keys has to be known. -/
theorem lost_of_derives {tr : Transport} {second : Bool} {k l : KeyName}
    (h : s(k, l) ∈ [s(.clientEph, .server), s(.client, .server), s(.client, .serverEph)])
    (derives : Derives (exposed lost tc ts) (.half second (session tr))) : k ∈ lost ∨ l ∈ lost := by
  by_contra none_
  obtain ⟨hk, hl⟩ := not_or.mp none_
  exact derives.untainted (untainted_exposed hk hl) (tainted_session tr h)

end

/-- Both static keys are known, or both keys of one party. -/
def Broken (lost : Set KeyName) : Prop :=
  {.client, .server} ⊆ lost ∨ {.client, .clientEph} ⊆ lost ∨ {.server, .serverEph} ⊆ lost

theorem derives_session_iff (lost : Set KeyName) (tc ts : Int64) (tr : Transport) (second : Bool) :
    Derives (exposed lost tc ts) (.half second (session tr)) ↔ Broken lost := by
  simp only [Broken, Set.insert_subset_iff, Set.singleton_subset_iff]
  constructor
  · intro derives
    have ephStatic := lost_of_derives (k := .clientEph) (l := .server) (by simp) derives
    have staticStatic := lost_of_derives (k := .client) (l := .server) (by simp) derives
    have staticEph := lost_of_derives (k := .client) (l := .serverEph) (by simp) derives
    tauto
  · intro broken
    refine .half second (derives_session_of tr ?_ ?_ ?_) <;> tauto

end Symbolic

/-- For every completed handshake, over either transport: who has recorded it and has learnt some of the four
    private keys can compute the session keys exactly if these are both static keys, or both keys of the
    client, or both keys of the server. -/
theorem session_keys_broken_iff (lib : OpenSsl) (client server ce se : KeyPair) (tc ts : Int64) (tr : Transport)
    (init resp : Octets) (kc : SessionKeys) (h : Completed lib client server ce se tc ts tr init resp kc) :
    (∃ secret, Symbolic.Agreed lib (pairs client server ce se) secret ∧
      HasValues lib (pairs client server ce se) tc ts tr init resp kc secret) ∧
    ∀ (lost : Set KeyName) (second : Bool),
      Derives (Symbolic.exposed lost tc ts) (.half second (Symbolic.session tr)) ↔ Symbolic.Broken lost :=
  ⟨h.hasValues, fun lost second => Symbolic.derives_session_iff lost tc ts tr second⟩

/-- The server's static key and an ephemeral key chosen in place of the client's do not give the session keys
    away; the static keys of both do. -/
theorem session_keys_broken_fresh :
    ∃ init kc, Completed freshSsl alice bob aliceEph bobEph 1000 1000 .udp init freshOffer.resp kc ∧
      ¬ Derives (Symbolic.exposed {.server, .clientEph} 1000 1000) (.half false (Symbolic.session .udp)) ∧
      Derives (Symbolic.exposed {.server, .client} 1000 1000) (.half false (Symbolic.session .udp)) := by
  obtain ⟨init, kc, h⟩ := fresh_udpCompleted
  have broken := (session_keys_broken_iff freshSsl alice bob aliceEph bobEph 1000 1000 .udp init _ kc h).2
  refine ⟨init, kc, h, ?_, ?_⟩
  · rw [broken]
    simp [Symbolic.Broken, Set.insert_subset_iff]
  · rw [broken]
    simp [Symbolic.Broken, Set.insert_subset_iff]

end AegisTunnel
