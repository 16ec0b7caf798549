import AegisTunnel.Lib.Tokens
import AegisTunnel.Routes
import AegisTunnel.Theorems.IniConfig

/-! The routes of a configuration: `tun_route` has the networks of all peers exactly if what is cut off and
    what is not read has none. -/

namespace AegisTunnel
open Tokens

/-! ### What the configuration says -/

def peersOf (cfg : IniConf) : List IniSection := cfg.sections.filter fun s => strcasecmpEq s.name "Peer".toList

/-- The values of all `AllowedIPs` entries of a section. -/
def allowedOf (s : IniSection) : List (List Char) :=
  (s.entries.filter fun e => strcasecmpEq e.key "AllowedIPs".toList).map (·.value)

/-- The networks in the `AllowedIPs` entries of all peers. -/
def configuredNetworks (cfg : IniConf) : List (List Char) :=
  ((peersOf cfg).flatMap allowedOf).flatMap (tokens isRouteSep)

/-- The section has an `AllowedIPs` entry and the first one is not empty: `main` reads on to the next peer. -/
def leads (s : IniSection) : Bool := !((allowedOf s).headD []).isEmpty

/-- The entries that `main` reads: the first ones of the leading peers. -/
def gathered (cfg : IniConf) : List (List Char) := ((peersOf cfg).takeWhile leads).map fun s => (allowedOf s).headD []

/-- The other entries: the further ones of these peers, and all of the peers after them. -/
def ungathered (cfg : IniConf) : List (List Char) :=
  ((peersOf cfg).takeWhile leads).flatMap (fun s => (allowedOf s).tail) ++ ((peersOf cfg).dropWhile leads).flatMap allowedOf

def joined (texts : List (List Char)) : List Char := [','].intercalate texts

/-! ### The loops -/

theorem take_snoc {n : Nat} (l : List Char) (c : Char) :
    (if (l.take n).length < n then l.take n ++ [c] else l.take n) = (l ++ [c]).take n := by
  rw [List.length_take]
  split
  next less => rw [List.take_of_length_le (by omega), List.take_of_length_le (by simp; omega)]
  next full => rw [List.take_append_of_le_length (by omega)]

theorem copyAip_take (l aip : List Char) : copyAip (l.take 62) aip = (l ++ aip).take 62 := by
  induction aip generalizing l with
  | nil => rw [copyAip, List.append_nil]
  | cons c aip ih =>
    rw [copyAip]
    have step := take_snoc (n := 62) l c
    split
    next less =>
      rw [if_pos less] at step
      rw [step, ih, List.append_assoc, List.singleton_append]
    next full =>
      rw [List.length_take] at full
      rw [List.take_append_of_le_length (by omega)]

theorem joined_snoc (done : List (List Char)) (v : List Char) :
    joined (done ++ [v]) = (if 0 < done.length then joined done ++ [','] else joined done) ++ v := by
  induction done with
  | nil => exact List.append_nil v
  | cons t done ih =>
    cases done with
    | nil => simp [joined, List.intercalate]
    | cons t' done =>
      have join (texts : List (List Char)) : joined (t :: t' :: texts) = t ++ ',' :: joined (t' :: texts) := by
        simp [joined, List.intercalate]
      rw [if_pos (by exact Nat.succ_pos _)] at ih ⊢
      rw [List.cons_append, List.cons_append, join, ← List.cons_append, ih, join]
      simp only [List.append_assoc, List.cons_append]

theorem getIndexed_allowed (cfg : IniConf) (pi : Nat) :
    iniconfGetIndexed cfg "Peer".toList pi "AllowedIPs".toList = (peersOf cfg)[pi]?.bind fun s => (allowedOf s).head? := by
  rw [iniconfGetIndexed_eq, lookup, if_neg (by omega), Int.toNat_natCast]
  refine Option.bind_congr fun s _ => ?_
  rw [allowedOf, List.head?_map, List.head?_filter]

theorem leads_iff {s : IniSection} : leads s = true ↔ (allowedOf s).headD [] ≠ [] := by
  rw [leads, Bool.not_eq_true', List.isEmpty_eq_false_iff]

theorem allowedOf_of_leads {s : IniSection} (h : leads s = true) :
    ∃ c aip, allowedOf s = (c :: aip) :: (allowedOf s).tail ∧ (allowedOf s).headD [] = c :: aip := by
  rw [leads_iff] at h
  cases entries : allowedOf s with
  | nil => rw [entries] at h; exact absurd rfl h
  | cons v vs =>
    rw [entries] at h
    obtain ⟨c, aip, hv⟩ := List.exists_cons_of_ne_nil h
    exact ⟨c, aip, congrArg (· :: vs) hv, hv⟩

theorem head?_of_not_leads {s : IniSection} (h : leads s = false) :
    (allowedOf s).head? = none ∨ (allowedOf s).head? = some [] := by
  cases entries : allowedOf s with
  | nil => exact .inl rfl
  | cons v vs =>
    rw [leads, entries, Bool.not_eq_false', List.isEmpty_iff] at h
    exact .inr (congrArg some h)

/-- The loop over the peers, with those before `pi` done. -/
theorem aggregateLoop_eq (cfg : IniConf) (rounds : Nat) (done : List (List Char))
    (enough : (peersOf cfg).length - done.length ≤ rounds) :
    aggregateLoop cfg rounds done.length ((joined done).take 62) =
      (joined (done ++ (((peersOf cfg).drop done.length).takeWhile leads).map fun s => (allowedOf s).headD [])).take 62 := by
  induction rounds generalizing done with
  | zero =>
    rw [List.drop_eq_nil_of_le (by omega), List.takeWhile_nil, List.map_nil, List.append_nil]
    rfl
  | succ rounds ih =>
    rw [aggregateLoop, getIndexed_allowed]
    rcases Nat.lt_or_ge done.length (peersOf cfg).length with more | none_left
    · obtain ⟨s, hs⟩ : ∃ s, s = (peersOf cfg)[done.length] := ⟨_, rfl⟩
      rw [List.getElem?_eq_getElem more, List.drop_eq_getElem_cons more, ← hs, Option.bind_some, List.takeWhile_cons]
      cases goes : leads s with
      | false =>
        rw [if_neg Bool.false_ne_true, List.map_nil, List.append_nil]
        rcases head?_of_not_leads goes with missing | empty
        · rw [missing]
        · rw [empty]
      | true =>
        obtain ⟨c, aip, entries, first⟩ := allowedOf_of_leads goes
        have read : (allowedOf s).head? = some (c :: aip) := congrArg List.head? entries
        have later := ih (done ++ [c :: aip]) (by rw [List.length_append, List.length_singleton]; omega)
        rw [joined_snoc, List.length_append, List.length_singleton, List.append_assoc, List.singleton_append] at later
        rw [if_pos rfl, List.map_cons, first, read, ← later, ← copyAip_take]
        refine congrArg (fun r => aggregateLoop cfg rounds _ (copyAip r _)) ?_
        by_cases later_peer : 0 < done.length
        · rw [if_pos later_peer, ← take_snoc]
          exact if_congr (and_iff_right later_peer) rfl rfl
        · rw [if_neg later_peer, if_neg fun h => later_peer h.1]
    · rw [List.getElem?_eq_none none_left, List.drop_eq_nil_of_le none_left, List.takeWhile_nil, List.map_nil,
        List.append_nil]
      rfl

theorem length_peersOf (cfg : IniConf) : (peersOf cfg).length ≤ maxPeers :=
  (List.length_filter_le ..).trans (cfg.count_le.trans (by decide))

theorem joined_ne_nil {t : List Char} (texts : List (List Char)) (ht : t ≠ []) : joined (t :: texts) ≠ [] := by
  cases texts with
  | nil => simpa [joined, List.intercalate] using ht
  | cons t' texts => simp [joined, List.intercalate]

theorem aggregateRoutes_eq (cfg : IniConf) : aggregateRoutes cfg [] = (joined (gathered cfg)).take 62 := by
  have loop : aggregateLoop cfg maxPeers 0 [] = (joined (gathered cfg)).take 62 :=
    aggregateLoop_eq cfg maxPeers [] ((Nat.sub_le ..).trans (length_peersOf cfg))
  rw [aggregateRoutes, List.isEmpty_nil, if_pos rfl, loop]
  split
  next empty =>
    -- nothing was read, so the fallback, which reads the first entry of the first peer again, has nothing either
    have first := getIndexed_allowed cfg 0
    rw [List.isEmpty_iff] at empty
    rw [empty, iniconfGet_eq]
    rw [Int.natCast_zero] at first
    rw [first]
    cases peers : peersOf cfg with
    | nil => rfl
    | cons s ss =>
      have stops : leads s = false := by
        by_contra goes
        rw [Bool.not_eq_false] at goes
        rw [gathered, peers, List.takeWhile_cons, if_pos goes, List.map_cons] at empty
        exact joined_ne_nil _ (leads_iff.1 goes) ((List.take_eq_nil_iff.1 empty).resolve_left (by decide))
      rw [List.getElem?_cons_zero, Option.bind_some]
      rcases head?_of_not_leads stops with missing | blank
      · rw [missing]
      · rw [blank]
        rfl
  next => rfl

theorem strtokR_none {text : List Char} (h : strtokR isRouteSep text = none) : tokens isRouteSep text = [] := by
  rw [strtokR] at h
  split at h
  next blank => rw [← tokens_dropWhile, List.isEmpty_iff.1 blank, tokens_nil]
  next => cases h

/-- What `strtok_r` finds is the first token. -/
theorem strtokR_some {text token rest : List Char} (h : strtokR isRouteSep text = some (token, rest)) :
    tokens isRouteSep text = token :: tokens isRouteSep rest ∧ token ≠ [] ∧ (∀ c ∈ token, isRouteSep c = false) ∧
      rest.length < text.length := by
  rw [strtokR] at h
  split at h
  next => cases h
  next some_ =>
    cases h
    obtain ⟨t, ht⟩ : ∃ t, t = text.dropWhile isRouteSep := ⟨_, rfl⟩
    have shorter : t.length ≤ text.length := ht ▸ (List.dropWhile_sublist _).length_le
    rw [← ht] at some_ ⊢
    have word : t.takeWhile (!isRouteSep ·) ≠ [] := by
      cases t with
      | nil => exact absurd rfl some_
      | cons c t => rw [List.takeWhile_cons, head_dropWhile ht.symm]; exact List.cons_ne_nil _ _
    refine ⟨by rw [← tokens_dropWhile, ← ht, tokens_takeWhile t word], word, fun c hc => mem_takeWhile_not hc, ?_⟩
    have parts := congrArg List.length (List.takeWhile_append_dropWhile (p := (!isRouteSep ·)) (l := t))
    have := List.length_pos_of_ne_nil word
    rw [List.length_append] at parts
    rw [List.length_tail]
    omega

/-- The loop of `tun_add_routes_multi` finds the tokens. -/
theorem routeLoop_eq (rounds : Nat) (text : List Char) (enough : text.length ≤ rounds) :
    routeLoop rounds text = tokens isRouteSep text := by
  induction rounds generalizing text with
  | zero => rw [List.eq_nil_of_length_eq_zero (Nat.le_zero.1 enough)]; rfl
  | succ rounds ih =>
    rw [routeLoop]
    cases found : strtokR isRouteSep text with
    | none => exact (strtokR_none found).symm
    | some p =>
      obtain ⟨token, rest⟩ := p
      obtain ⟨toks, some_, word, shorter⟩ := strtokR_some found
      rw [toks, ← ih rest (by omega)]
      cases token with
      | nil => exact absurd rfl some_
      | cons c token =>
        have hc := word c (List.mem_cons_self ..)
        have kept : (c :: token).dropWhile (fun c => c = ' ' || c = '\t') = c :: token := by
          rw [isRouteSep, Bool.or_assoc, Bool.or_eq_false_iff] at hc
          rw [List.dropWhile_cons, hc.2, if_neg Bool.false_ne_true]
        simp only [kept, List.isEmpty_cons, Bool.false_eq_true, if_false]

theorem routeTokens_eq {text : List Char} (short : text.length ≤ 255) : routeTokens text = tokens isRouteSep text := by
  rw [routeTokens, List.take_of_length_le short]
  exact routeLoop_eq _ _ (Nat.le_refl _)

/-! ### Which networks are there -/

theorem allowedOf_split {s : IniSection} (h : leads s = true) :
    allowedOf s = (allowedOf s).headD [] :: (allowedOf s).tail := by
  obtain ⟨c, aip, entries, first⟩ := allowedOf_of_leads h
  rw [first]
  exact entries

/-- Every entry is read or not: for each quantity that adds up over entries. -/
theorem sum_entries (cfg : IniConf) (f : List Char → Nat) :
    (((peersOf cfg).flatMap allowedOf).map f).sum = ((gathered cfg).map f).sum + ((ungathered cfg).map f).sum := by
  have first (ss : List IniSection) (h : ∀ s ∈ ss, leads s = true) :
      ((ss.flatMap allowedOf).map f).sum =
        ((ss.map fun s => (allowedOf s).headD []).map f).sum + ((ss.flatMap fun s => (allowedOf s).tail).map f).sum := by
    induction ss with
    | nil => rfl
    | cons s ss ih =>
      rw [List.forall_mem_cons] at h
      have split := congrArg (fun vs => (vs.map f).sum) (allowedOf_split h.1)
      simp only [List.map_cons, List.sum_cons] at split
      simp only [List.flatMap_cons, List.map_append, List.sum_append, List.map_cons, List.sum_cons, ih h.2, split]
      omega
  have all := congrArg (fun ss => ((ss.flatMap allowedOf).map f).sum)
    (List.takeWhile_append_dropWhile (p := leads) (l := peersOf cfg))
  simp only [List.flatMap_append, List.map_append, List.sum_append] at all
  rw [← all, first _ fun s hs => List.mem_takeWhile_imp hs, gathered, ungathered, List.map_append, List.sum_append]
  omega

/-- How many characters of a text belong to tokens. -/
def netChars (text : List Char) : Nat := text.countP fun c => !isRouteSep c

theorem length_flatten_tokens (text : List Char) : (tokens isRouteSep text).flatten.length = netChars text := by
  rw [flatten_tokens, netChars, List.countP_eq_length_filter]

theorem netChars_eq_zero {text : List Char} : netChars text = 0 ↔ ∀ c ∈ text, isRouteSep c = true := by
  simp only [netChars, List.countP_eq_zero, Bool.not_eq_true', Bool.not_eq_false]

theorem length_flatten_networks (texts : List (List Char)) :
    (texts.flatMap (tokens isRouteSep)).flatten.length = (texts.map netChars).sum := by
  induction texts with
  | nil => rfl
  | cons t texts ih =>
    rw [List.flatMap_cons, List.flatten_append, List.length_append, ih, length_flatten_tokens, List.map_cons, List.sum_cons]

theorem tokens_joined (texts : List (List Char)) : tokens isRouteSep (joined texts) = texts.flatMap (tokens isRouteSep) :=
  tokens_intercalate rfl texts

/-- Peers of which only the first entries have networks. -/
theorem networks_gathered {cfg : IniConf} (none_left : ∀ v ∈ ungathered cfg, ∀ c ∈ v, isRouteSep c = true) :
    configuredNetworks cfg = (gathered cfg).flatMap (tokens isRouteSep) := by
  have blank (vs : List (List Char)) (h : ∀ v ∈ vs, v ∈ ungathered cfg) : vs.flatMap (tokens isRouteSep) = [] :=
    List.flatMap_eq_nil_iff.2 fun v hv => tokens_blank (none_left v (h v hv))
  have first (ss : List IniSection) (h : ∀ s ∈ ss, s ∈ (peersOf cfg).takeWhile leads) :
      (ss.flatMap allowedOf).flatMap (tokens isRouteSep) =
        (ss.map fun s => (allowedOf s).headD []).flatMap (tokens isRouteSep) := by
    induction ss with
    | nil => rfl
    | cons s ss ih =>
      rw [List.forall_mem_cons] at h
      have others := blank (allowedOf s).tail fun v hv =>
        List.mem_append_left _ (List.mem_flatMap.2 ⟨s, h.1, hv⟩)
      have own := congrArg (List.flatMap (tokens isRouteSep)) (allowedOf_split (List.mem_takeWhile_imp h.1))
      rw [List.flatMap_cons, others, List.append_nil] at own
      rw [List.flatMap_cons, List.flatMap_append, own, ih h.2, List.map_cons, List.flatMap_cons]
  rw [configuredNetworks]
  conv_lhs => rw [← List.takeWhile_append_dropWhile (p := leads) (l := peersOf cfg)]
  rw [List.flatMap_append, List.flatMap_append, first _ fun _ hs => hs,
    blank _ fun v hv => List.mem_append_right _ hv, List.append_nil, gathered]

/-- The routes are those of the networks of all peers, in order, exactly if no part of a network comes after the
    first 62 characters of the entries that `main` joins, and there are no networks in the other entries: further
    `AllowedIPs` entries of a peer, and those of the peers from the first one on that has none. -/
theorem routes_faithful_iff (cfg : IniConf) :
    routeTokens (aggregateRoutes cfg []) = configuredNetworks cfg ↔
      (∀ c ∈ (joined (gathered cfg)).drop 62, isRouteSep c = true) ∧
        ∀ v ∈ ungathered cfg, ∀ c ∈ v, isRouteSep c = true := by
  have short : ((joined (gathered cfg)).take 62).length ≤ 255 := (List.length_take_le ..).trans (by decide)
  have parts : netChars (joined (gathered cfg)) =
      netChars ((joined (gathered cfg)).take 62) + netChars ((joined (gathered cfg)).drop 62) := by
    rw [netChars, netChars, netChars, ← List.countP_append, List.take_append_drop]
  rw [aggregateRoutes_eq, routeTokens_eq short]
  constructor
  · intro same
    -- the characters of the routes are too few otherwise
    have count := congrArg (fun nets => nets.flatten.length) same
    have whole := congrArg (fun nets => nets.flatten.length) (tokens_joined (gathered cfg))
    simp only [configuredNetworks, length_flatten_tokens, length_flatten_networks, sum_entries] at count whole
    refine ⟨netChars_eq_zero.1 (by omega), fun v hv => netChars_eq_zero.1 ?_⟩
    exact List.sum_eq_zero_iff_forall_eq_nat.1 (by omega) _ (List.mem_map_of_mem hv)
  · rintro ⟨blank, none_left⟩
    rw [networks_gathered none_left, ← tokens_joined]
    conv_rhs => rw [← List.take_append_drop 62 (joined (gathered cfg)), tokens_append_blank blank]

/-- Four sites, whose networks are one character more than `tun_route` takes. -/
def fourSites : List Char :=
  ("[Peer]\nAllowedIPs = 192.168.101.0/24\n[Peer]\nAllowedIPs = 192.168.102.0/24\n" ++
    "[Peer]\nAllowedIPs = 192.168.103.0/24\n[Peer]\nAllowedIPs = 10.19.0.0/24\n").toList

/-- The last of them becomes a route for a quarter of all addresses. -/
theorem routes_cut_wider :
    (¬ ∀ file, routeTokens (aggregateRoutes (iniconfLoad file) []) = configuredNetworks (iniconfLoad file)) ∧
      (routeTokens (aggregateRoutes (iniconfLoad fourSites) [])).getLast? = some "10.19.0.0/2".toList ∧
        (configuredNetworks (iniconfLoad fourSites)).getLast? = some "10.19.0.0/24".toList := by
  have cut : (routeTokens (aggregateRoutes (iniconfLoad fourSites) [])).getLast? = some "10.19.0.0/2".toList := by
    decide +kernel
  have configured : (configuredNetworks (iniconfLoad fourSites)).getLast? = some "10.19.0.0/24".toList := by
    decide +kernel
  refine ⟨fun hall => ?_, cut, configured⟩
  rw [hall, configured] at cut
  exact absurd cut (by decide)

end AegisTunnel
