import Lox.Proofs.Machine.Mirror
import Mathlib.Data.List.Nodup

/-!
# What is recorded of a program

The depths that a machine keeps for the nodes of a program are those of its sites.  A machine keeps
the depths of earlier programs, whose identifiers are smaller.
-/

namespace Lox

namespace Machine

variable {m : Machine} {findings : List Finding} {id : NodeId}

theorem getElem?_foldl_insert {found : List (NodeId × Nat)} {depths : Std.TreeMap NodeId Nat}
    {depth : Nat}
    (h : (found.foldl (fun t (p : NodeId × Nat) ↦ t.insert p.1 p.2) depths)[id]? = some depth) :
    (id, depth) ∈ found ∨ depths[id]? = some depth := by
  induction found generalizing depths with
  | nil => exact .inr h
  | cons p rest ih =>
    rcases ih h with hmem | hinsert
    · exact .inl (List.mem_cons_of_mem _ hmem)
    · rw [Std.TreeMap.getElem?_insert] at hinsert
      split at hinsert
      · rename_i heq
        cases hinsert
        rw [← Nat.compare_eq_eq.1 heq]
        exact .inl List.mem_cons_self
      · exact .inr hinsert

theorem getElem?_foldl_insert_of_ne {found : List (NodeId × Nat)}
    {depths : Std.TreeMap NodeId Nat} (h : ∀ p ∈ found, p.1 ≠ id) :
    (found.foldl (fun t (p : NodeId × Nat) ↦ t.insert p.1 p.2) depths)[id]? = depths[id]? := by
  induction found generalizing depths with
  | nil => rfl
  | cons p rest ih =>
    rw [List.foldl_cons, ih fun q hq ↦ h q (List.mem_cons_of_mem _ hq), Std.TreeMap.getElem?_insert]
    exact if_neg fun heq ↦ h p List.mem_cons_self (Nat.compare_eq_eq.1 heq)

theorem isSome_getElem?_foldl_insert {found : List (NodeId × Nat)}
    {depths : Std.TreeMap NodeId Nat}
    (h : (∃ depth, (id, depth) ∈ found) ∨ depths[id]?.isSome = true) :
    (found.foldl (fun t (p : NodeId × Nat) ↦ t.insert p.1 p.2) depths)[id]?.isSome = true := by
  induction found generalizing depths with
  | nil => exact h.resolve_left nofun
  | cons p rest ih =>
    refine ih ?_
    rw [Std.TreeMap.getElem?_insert]
    rcases h with ⟨depth, hmem⟩ | hsome
    · rcases List.mem_cons.1 hmem with rfl | hmem
      · exact .inr (by rw [if_pos (Nat.compare_eq_eq.2 rfl)]; rfl)
      · exact .inl ⟨depth, hmem⟩
    · refine .inr ?_
      split
      · rfl
      · exact hsome

/-- Where no depth is recorded twice for a node, all that are recorded are kept. -/
theorem getElem?_foldl_insert_iff {found : List (NodeId × Nat)}
    (hnodup : (found.map Prod.fst).Nodup) (id : NodeId) (depth : Nat) :
    (found.foldl (fun t (p : NodeId × Nat) ↦ t.insert p.1 p.2)
      (∅ : Std.TreeMap NodeId Nat))[id]? = some depth ↔ (id, depth) ∈ found := by
  have hfound : ∀ depth, (found.foldl (fun t (p : NodeId × Nat) ↦ t.insert p.1 p.2)
      (∅ : Std.TreeMap NodeId Nat))[id]? = some depth → (id, depth) ∈ found := by
    intro depth hdepth
    refine (getElem?_foldl_insert hdepth).resolve_right fun hempty ↦ ?_
    rw [Std.TreeMap.getElem?_emptyc] at hempty
    cases hempty
  refine ⟨hfound depth, fun hmem ↦ ?_⟩
  have hsome : (found.foldl (fun t (p : NodeId × Nat) ↦ t.insert p.1 p.2)
      (∅ : Std.TreeMap NodeId Nat))[id]?.isSome = true :=
    isSome_getElem?_foldl_insert (.inl ⟨depth, hmem⟩)
  obtain ⟨kept, hkept⟩ := Option.isSome_iff_exists.1 hsome
  have hsame := List.inj_on_of_nodup_map hnodup (hfound kept hkept) hmem rfl
  cases hsame
  exact hkept

theorem getElem?_record_of_ne (h : ∀ f ∈ findings, ∀ depth, f.address? ≠ some (id, depth)) :
    (m.record findings).addresses[id]? = m.addresses[id]? := by
  refine getElem?_foldl_insert_of_ne fun p hp heq ↦ ?_
  obtain ⟨f, hf, haddress⟩ := List.mem_filterMap.1 hp
  obtain ⟨id', depth⟩ := p
  cases heq
  exact h f hf depth haddress

theorem exists_of_getElem?_record {depth : Nat}
    (h : (m.record findings).addresses[id]? = some depth) :
    (∃ f ∈ findings, f.address? = some (id, depth)) ∨ m.addresses[id]? = some depth := by
  rcases getElem?_foldl_insert h with hmem | hold
  · exact .inl (List.mem_filterMap.1 hmem)
  · exact .inr hold

theorem isSome_getElem?_record {f : Finding} (hf : f ∈ findings) {depth : Nat}
    (haddress : f.address? = some (id, depth)) :
    ((m.record findings).addresses[id]?).isSome = true :=
  isSome_getElem?_foldl_insert (.inl ⟨depth, List.mem_filterMap.2 ⟨f, hf, haddress⟩⟩)

end Machine

theorem Site.address?_finding {site : Site} {id : NodeId} {depth : Nat}
    (h : site.finding.address? = some (id, depth)) :
    site.id = id ∧ site.scopes.depth? site.name.lexeme = some depth := by
  unfold Site.finding Finding.ofUse at h
  cases hdepth : site.scopes.depth? site.name.lexeme with
  | none =>
    rw [hdepth] at h
    cases h
  | some depth' =>
    rw [hdepth] at h
    cases h
    exact ⟨rfl, rfl⟩

/-- The depth that is kept for each site, if any, is the one at which its variable is found. -/
def Addressed (addresses : Std.TreeMap NodeId Nat) (sites : List Site) : Prop :=
  ∀ site ∈ sites, addresses[site.id]? = site.scopes.depth? site.name.lexeme

theorem addressed_record {m : Machine} {sites : List Site} (hnodup : (sites.map Site.id).Nodup)
    (hnew : ∀ site ∈ sites, m.addresses[site.id]? = none) :
    Addressed (m.record (sites.map Site.finding)).addresses sites := by
  intro site hsite
  have hfound : ∀ depth, (m.record (sites.map Site.finding)).addresses[site.id]? = some depth →
      site.scopes.depth? site.name.lexeme = some depth := by
    intro depth hdepth
    rcases Machine.exists_of_getElem?_record hdepth with ⟨f, hf, haddress⟩ | hold
    · obtain ⟨other, hother, rfl⟩ := List.mem_map.1 hf
      obtain ⟨hid, hfound⟩ := Site.address?_finding haddress
      rw [List.inj_on_of_nodup_map hnodup hother hsite hid] at hfound
      exact hfound
    · rw [hnew site hsite] at hold
      cases hold
  cases hkept : (m.record (sites.map Site.finding)).addresses[site.id]? with
  | some depth => exact (hfound depth hkept).symm
  | none =>
    cases hdepth : site.scopes.depth? site.name.lexeme with
    | none => rfl
    | some depth =>
      have haddress : site.finding.address? = some (site.id, depth) := by
        rw [Site.finding, Finding.ofUse, hdepth]
        rfl
      have hsome := Machine.isSome_getElem?_record (m := m) (List.mem_map_of_mem hsite) haddress
      rw [hkept] at hsome
      cases hsome

/-- So it is for the sites of a program with new identifiers that breaks no rule, once its findings
are recorded. -/
theorem addressed_resolve {m : Machine} {program : List Stmt} {low : Nat}
    (hnodup : (Stmt.idsAll program).Nodup) (hlow : ∀ id ∈ Stmt.idsAll program, low ≤ id)
    (hrecorded : ∀ id depth, m.addresses[id]? = some depth → id < low)
    (hquiet : Quiet (resolve program)) :
    Addressed (m.record (resolve program)).addresses (Stmt.sitesAll [] program) := by
  have hfindings : resolve program = (Stmt.sitesAll [] program).map Site.finding :=
    (Stmt.talliesAll {} [] program).eq_of_quiet hquiet
  rw [hfindings]
  refine addressed_record (Stmt.map_id_sitesAll [] program ▸ hnodup) fun site hsite ↦ ?_
  have hid : site.id ∈ Stmt.idsAll program :=
    Stmt.map_id_sitesAll [] program ▸ List.mem_map_of_mem hsite
  cases hdepth : m.addresses[site.id]? with
  | none => rfl
  | some depth => exact absurd (hrecorded _ _ hdepth) (Nat.not_lt_of_le (hlow _ hid))

/-- A site whose identifier has been given out, and whose recorded depth, if any, is the one at
which its variable is found and ready. -/
structure Site.Located (addresses : Std.TreeMap NodeId Nat) (next : NodeId) (known : List Site)
    (site : Site) : Prop where
  lt : site.id < next
  recorded : ∀ depth, addresses[site.id]? = some depth →
    site ∈ known ∧ site.Ready ∧ site.scopes.depth? site.name.lexeme = some depth

namespace Site.Located

variable {addresses addresses' : Std.TreeMap NodeId Nat} {next next' : NodeId}
  {known known' : List Site} {site : Site}

theorem mono (h : site.Located addresses next known) (hnext : next ≤ next')
    (hknown : known ⊆ known') (haddresses : ∀ id < next, addresses'[id]? = addresses[id]?) :
    site.Located addresses' next' known' where
  lt := Nat.lt_of_lt_of_le h.lt hnext
  recorded depth hdepth := by
    rw [haddresses _ h.lt] at hdepth
    obtain ⟨hmem, hfound⟩ := h.recorded depth hdepth
    exact ⟨hknown hmem, hfound⟩

/-- Where nothing is recorded of a new site, it is located. -/
theorem of_getElem?_eq_none (hlt : site.id < next) (hnone : addresses[site.id]? = none) :
    site.Located addresses next known :=
  ⟨hlt, fun depth hdepth ↦ by rw [hnone] at hdepth; cases hdepth⟩

theorem of_addressed {sites : List Site} (haddressed : Addressed addresses sites)
    (hlt : ∀ site ∈ sites, site.id < next) (hready : ∀ site ∈ sites, site.Ready)
    (hknown : sites ⊆ known) : ∀ site ∈ sites, site.Located addresses next known := by
  intro site hsite
  refine ⟨hlt site hsite, fun depth hdepth ↦ ⟨hknown hsite, hready site hsite, ?_⟩⟩
  rw [← haddressed site hsite]
  exact hdepth

end Site.Located

section Imp

variable {P P' : Site → Prop} {h : Heap}

theorem Function.SoundMethod.imp (himp : ∀ site, P site → P' site) {f : Function}
    (hf : f.SoundMethod P h) : f.SoundMethod P' h := by
  obtain ⟨scopes, hm, hsites, horderly⟩ := hf
  exact ⟨scopes, hm, fun site hsite ↦ himp site (hsites site hsite), horderly⟩

theorem Class.Sound.imp (himp : ∀ site, P site → P' site) {c : Class} (hc : c.Sound P h) :
    c.Sound P' h :=
  fun layer hlayer name f hf ↦ (hc layer hlayer name f hf).imp himp

theorem Value.Sound.imp (himp : ∀ site, P site → P' site) {v : Value} (hv : v.Sound P h) :
    v.Sound P' h := by
  cases v with
  | function f =>
    obtain ⟨scopes, hm, hsites, horderly⟩ := hv
    exact ⟨scopes, hm, fun site hsite ↦ himp site (hsites site hsite), horderly⟩
  | cls c => exact Class.Sound.imp himp hv
  | «instance» i => exact Class.Sound.imp himp hv
  | _ => trivial

theorem Heap.Sound.imp (himp : ∀ site, P site → P' site) (hs : h.Sound P) : h.Sound P' where
  bound scope name value hvalue := (hs.bound scope name value hvalue).imp himp
  fields i name value hvalue := (hs.fields i name value hvalue).imp himp

end Imp

end Lox
