import ReconOS.Net.Arp

/-! What the ARP cache believes: which packets set, replace or evict an entry. -/
namespace ReconOS.Net

/-- The packet is for an address of this machine, or a reply from an address this machine asked
for. -/
def Justified (env : ArpEnv) (s : Arp) (dev : NetDevice) (p : ArpPacket) : Prop :=
  (∃ d ∈ dev :: env.others, d.ip ≠ 0 ∧ p.targetIp = d.ip) ∨
  p.op = arpOpReply ∧ p.senderIp ∈ s.asked

/-- What a call may leave the cache holding for an address, where that changes: a lookup forgets,
and a packet that is justified teaches or evicts. -/
def Allowed (env : ArpEnv) (s : Arp) (ip : Ipv4Addr) (mac : Option MacAddr) : ArpCall → Prop
  | .lookup _ _ => mac = none
  | .receive dev a => ∃ p, parseArp a = some p ∧ Justified env s dev p ∧
      (mac = none ∨ ip = p.senderIp ∧ mac = some p.senderMac)

/-- The call changes what the cache holds only as it may. -/
def OnlyAnswers (env : ArpEnv) (s : Arp) (call : ArpCall) : Prop :=
  ∀ ip, held (s.step env call).cache ip = held s.cache ip ∨
    Allowed env s ip (held (s.step env call).cache ip) call

/-- A reply that the cache can learn from is justified, or says what the cache holds already. -/
def Solicited (env : ArpEnv) (s : Arp) : ArpCall → Prop
  | .lookup _ _ => True
  | .receive dev a => ∀ p, parseArp a = some p → p.op = arpOpReply →
      Learnable p.senderIp p.senderMac →
      Justified env s dev p ∨ held s.cache p.senderIp = some p.senderMac

/-- A property of every call of a run. -/
def Throughout (P : ArpEnv → Arp → ArpCall → Prop) (s : Arp) : List (ArpEnv × ArpCall) → Prop
  | [] => True
  | (env, call) :: rest => P env s call ∧ Throughout P (s.step env call) rest

/-! ## One packet -/

variable {c c' : Cache} {ip : Ipv4Addr} {mac : MacAddr}

theorem held_view (u : (view c).Unique) (same : view c' = view c) : held c' ip = held c ip := by
  apply Option.ext
  intro mac
  rw [held_eq_some u, held_eq_some (same ▸ u), same]

/-- What is held for an address stays, goes, or is what was taught. -/
theorem held_cases (Taught : Ipv4Addr → MacAddr → Prop) (u : (view c).Unique)
    (u' : (view c').Unique)
    (taught : ∀ ip mac, (view c').Holds ip mac → Taught ip mac ∨ (view c).Holds ip mac)
    (ip : Ipv4Addr) :
    held c' ip = held c ip ∨ held c' ip = none ∨ ∃ mac, Taught ip mac ∧ held c' ip = some mac := by
  cases now : held c' ip with
  | none => exact .inr (.inl rfl)
  | some mac =>
    rcases taught ip mac ((held_eq_some u').1 now) with new | before
    · exact .inr (.inr ⟨mac, new, rfl⟩)
    · exact .inl ((held_eq_some u).2 before).symm

/-- What a packet leaves: nothing it says is learned from one neither for this device nor a
reply. -/
theorem receive_spec (sends : Bool) (now again : Time) (dev : NetDevice) {a : List U8}
    {p : ArpPacket} (u : (view c).Unique) (parsed : parseArp a = some p) :
    (view (arpReceive sends now again dev c a).1).Unique ∧
    (∀ ip mac, (view (arpReceive sends now again dev c a).1).Holds ip mac →
      ip = p.senderIp ∧ mac = p.senderMac ∨ (view c).Holds ip mac) ∧
    (¬(dev.ip ≠ 0 ∧ p.targetIp = dev.ip) →
      (arpReceive sends now again dev c a).1 =
        if p.op = arpOpReply then learn c again p.senderIp p.senderMac else c) := by
  have first : (view (if dev.ip ≠ 0 ∧ p.targetIp = dev.ip then learn c now p.senderIp p.senderMac
        else c)).Unique ∧ ∀ ip mac, (view (if dev.ip ≠ 0 ∧ p.targetIp = dev.ip then
          learn c now p.senderIp p.senderMac else c)).Holds ip mac →
        ip = p.senderIp ∧ mac = p.senderMac ∨ (view c).Holds ip mac := by
    split
    · exact ⟨learn_unique u _ _ _, fun _ _ => learn_holds u⟩
    · exact ⟨u, fun _ _ => .inr⟩
  simp only [arpReceive, parsed]
  split
  · refine ⟨learn_unique first.1 _ _ _, fun ip mac holds => ?_, fun others => by rw [if_neg others]⟩
    rcases learn_holds first.1 holds with taught | before
    · exact .inl taught
    · exact first.2 ip mac before
  · split
    · exact ⟨first.1, first.2, fun others => by rw [if_neg others]⟩
    · exact ⟨first.1, first.2, fun others => by rw [if_neg others]⟩

theorem step_unique {env : ArpEnv} {s : Arp} (u : (view s.cache).Unique) (call : ArpCall) :
    (view (s.step env call).cache).Unique := by
  cases call with
  | lookup dev ip => exact lookup_unique u _ _ dev ip
  | receive dev a =>
    cases parsed : parseArp a with
    | none => simpa [Arp.step, arpReceive, parsed] using u
    | some p => exact (receive_spec _ _ _ dev u parsed).1

/-- A packet that is not justified is not for the device it came in by. -/
theorem not_ours {env : ArpEnv} {s : Arp} {dev : NetDevice} {p : ArpPacket}
    (h : ¬Justified env s dev p) : ¬(dev.ip ≠ 0 ∧ p.targetIp = dev.ip) :=
  fun ours => h (.inl ⟨dev, List.mem_cons_self, ours⟩)

/-- One call: it keeps to the answers exactly when it is no unsolicited reply with news. -/
theorem step_iff {env : ArpEnv} {s : Arp} (u : (view s.cache).Unique) (call : ArpCall) :
    OnlyAnswers env s call ↔ Solicited env s call := by
  cases call with
  | lookup dev ip =>
    refine iff_of_true (fun ip' => ?_) trivial
    have only := held_cases (fun _ _ => False) u
      (lookup_unique u env.sends env.now dev ip) (fun _ _ holds => .inr (lookup_holds holds)) ip'
    rcases only with same | gone | ⟨_, no, -⟩
    · exact .inl same
    · exact .inr gone
    · cases no
  | receive dev a =>
    cases parsed : parseArp a with
    | none =>
      refine iff_of_true (fun ip => .inl ?_) ?_
      · simp [Arp.step, arpReceive, parsed]
      · simp [Solicited, parsed]
    | some p =>
      obtain ⟨unique, taught, unasked⟩ := receive_spec env.sends env.now env.again dev u parsed
      constructor
      · intro only p' parsed' reply ok
        rw [parsed] at parsed'
        cases parsed'
        by_contra news
        obtain ⟨unjust, news⟩ := not_or.1 news
        -- The reply is learned from, so it must have been held before.
        have learned : held (arpReceive env.sends env.now env.again dev s.cache a).1 p.senderIp =
            some p.senderMac := by
          rw [unasked (not_ours unjust), if_pos reply, held_eq_some (learn_unique u _ _ _)]
          exact learn_learns u _ ok
        rcases only p.senderIp with same | ⟨p', parsed', just, -⟩
        · exact news (same ▸ learned)
        · rw [parsed] at parsed'
          cases parsed'
          exact unjust just
      · intro solicited ip
        by_cases just : Justified env s dev p
        · rcases held_cases _ u unique taught ip with same | gone | ⟨mac, ⟨at_ip, rfl⟩, now⟩
          · exact .inl same
          · exact .inr ⟨p, parsed, just, .inl gone⟩
          · exact .inr ⟨p, parsed, just, .inr ⟨at_ip, now⟩⟩
        · left
          change held (arpReceive env.sends env.now env.again dev s.cache a).1 ip = _
          rw [unasked (not_ours just)]
          split
          case isTrue reply =>
            by_cases ok : Learnable p.senderIp p.senderMac
            · have known := (solicited p parsed reply ok).resolve_left just
              exact held_view u (learn_again u _ ((held_eq_some u).1 known))
            · rcases learn_cases u env.again p.senderIp p.senderMac with ⟨-, same⟩ | ⟨ok', -⟩
              · rw [same]
              · exact absurd ok' ok
          case isFalse => rfl

/-! ## Runs -/

theorem run_iff {s : Arp} (u : (view s.cache).Unique) (calls : List (ArpEnv × ArpCall)) :
    Throughout OnlyAnswers s calls ↔ Throughout Solicited s calls := by
  induction calls generalizing s with
  | nil => exact Iff.rfl
  | cons call rest ih =>
    obtain ⟨env, call⟩ := call
    exact and_congr (step_iff u call) (ih (step_unique u call))

theorem boot_unique : (view Arp.boot.cache).Unique := by
  intro i j k v w at_i
  simp [view, Arp.boot, Cache.empty] at at_i

/-- From boot, whatever packets come and whatever is looked up: the cache keeps to the answers
through the whole run exactly when no unsolicited reply in it has news for the cache. -/
theorem only_answers_iff (calls : List (ArpEnv × ArpCall)) :
    Throughout OnlyAnswers .boot calls ↔ Throughout Solicited .boot calls :=
  run_iff boot_unique calls

/-- A reply from 10.0.0.9 to 10.0.0.7, seen by 10.0.0.5, which asked nobody. -/
def overheard : List (ArpEnv × ArpCall) :=
  [(⟨⟨1, by decide⟩, ⟨1, by decide⟩, true, []⟩, .receive hostDevice
    [0, 1, 8, 0, 6, 4, 0, 2, 2, 0, 0, 0, 0, 9, 10, 0, 0, 9, 2, 0, 0, 0, 0, 7, 10, 0, 0, 7])]

theorem overheard_believed : ¬ Throughout OnlyAnswers .boot overheard := by
  rw [run_iff boot_unique]
  rintro ⟨solicited, -⟩
  rcases solicited _ rfl (by decide) (by decide) with (⟨d, near, -, own⟩ | ⟨-, asked⟩) | known
  · obtain rfl := List.mem_singleton.1 near
    exact absurd own (by decide)
  · cases asked
  · exact absurd known (by decide)

end ReconOS.Net
