import TftAnalytics.Common.Bytes
import Mathlib.Data.List.Chain
/-!
# API — the augments of the set

`AUGMENTS` of `tft_data.py`, which the lists of augments are completed
from.
-/

namespace TftAnalytics

namespace Api

/-- `AUGMENTS`. -/
def augmentNames : List String :=
  [
    "TFT10_Augment_CrashTestDummies", "TFT10_Augment_GoingLong",
    "TFT10_Augment_GoodForSomethingSilver", "TFT10_Augment_HeroicGrabBag",
    "TFT10_Augment_LittleBuddies", "TFT11_Augment_AtWhatCost", "TFT11_Augment_BloodBank",
    "TFT11_Augment_Buildabud", "TFT11_Augment_Calltochaos", "TFT11_Augment_Epoch",
    "TFT11_Augment_EpochPlus", "TFT11_Augment_Prizefighter", "TFT11_Augment_Reinfourcement",
    "TFT11_Augment_Slammin", "TFT11_Augment_Slammin_Plus", "TFT11_Augment_TinyButDeadly",
    "TFT16_Augment_UltraRapidFire", "TFT17_Augment_AatroxCarry", "TFT17_Augment_AhriGodAugment",
    "TFT17_Augment_AnimaSquad_Commander", "TFT17_Augment_ApotheoticForge",
    "TFT17_Augment_Arbiter_DivineAmendment", "TFT17_Augment_AurelionSolGodAugment",
    "TFT17_Augment_AurelionSolGodAugment_BoonOfResurrection", "TFT17_Augment_Concentration",
    "TFT17_Augment_DarkStar_WhiteHole", "TFT17_Augment_EkkoGodAugment",
    "TFT17_Augment_EvelynnGodAugment", "TFT17_Augment_EvelynnGodAugment_BloodPrice",
    "TFT17_Augment_GragasCarry", "TFT17_Augment_InvaderZed", "TFT17_Augment_IvernMinionCarry",
    "TFT17_Augment_JaxCarry", "TFT17_Augment_KayleGodAugment",
    "TFT17_Augment_KayleGodAugment_Scrapper", "TFT17_Augment_LeonaCarry",
    "TFT17_Augment_MordekaiserCarry", "TFT17_Augment_NasusCarry", "TFT17_Augment_PoppyCarry",
    "TFT17_Augment_PrimordianPrismaticAugment", "TFT17_Augment_PykeCarry",
    "TFT17_Augment_SorakaGodAugment", "TFT17_Augment_ThreshGodAugment",
    "TFT17_Augment_Timebreaker_Timestream", "TFT17_Augment_TourOfTheGalaxy",
    "TFT17_Augment_VarusGodAugment_BoonOfStars", "TFT17_Augment_YasuoGodAugment_GoldenHex",
    "TFT17_Augment_YasuoGodAugment_MoreHexes", "TFT17_Augment_YasuoGodAugment_PaintedPower",
    "TFT6_Augment_BandOfThieves2", "TFT6_Augment_BandOfThieves2Plus",
    "TFT6_Augment_BandOfThieves2PlusPlus", "TFT6_Augment_CalculatedLoss", "TFT6_Augment_ClearMind",
    "TFT6_Augment_CyberneticImplants2", "TFT6_Augment_CyberneticUplink2",
    "TFT6_Augment_Distancing", "TFT6_Augment_Distancing2", "TFT6_Augment_Diversify1",
    "TFT6_Augment_Electrocharge1", "TFT6_Augment_Electrocharge2", "TFT6_Augment_ForceOfNature",
    "TFT6_Augment_ForceOfNaturePlus", "TFT6_Augment_GachaAddict", "TFT6_Augment_HyperRoll",
    "TFT6_Augment_ItemGrabBag1", "TFT6_Augment_MakeshiftArmor1", "TFT6_Augment_MakeshiftArmor2",
    "TFT6_Augment_MaxLevel10", "TFT6_Augment_OneTwoFive", "TFT6_Augment_PandorasItems",
    "TFT6_Augment_PortableForge", "TFT6_Augment_Recombobulator", "TFT6_Augment_SalvageBin",
    "TFT6_Augment_SecondWind1", "TFT6_Augment_SecondWind2", "TFT6_Augment_SunfireBoard",
    "TFT6_Augment_TheGoldenEgg", "TFT6_Augment_ThriftShop", "TFT6_Augment_TinyTitans",
    "TFT6_Augment_TradeSector", "TFT6_Augment_TradeSector2", "TFT7_Augment_AFK",
    "TFT7_Augment_BandOfThieves1", "TFT7_Augment_BestFriends1", "TFT7_Augment_BestFriends2",
    "TFT7_Augment_BirthdayPresents", "TFT7_Augment_ClutteredMind", "TFT7_Augment_CursedCrown",
    "TFT7_Augment_LategameSpecialist", "TFT7_Augment_LivingForge", "TFT7_Augment_LuckyGloves",
    "TFT7_Augment_LuckyGlovesPlus", "TFT7_Augment_UrfsGrabBag2", "TFT8_Augment_SalvageBinPlus",
    "TFT9_Augment_ArmyBuilding", "TFT9_Augment_BardPlaybook1", "TFT9_Augment_BigGrabBag",
    "TFT9_Augment_BuildingACollectionPlusPlus", "TFT9_Augment_Commander_Ascension",
    "TFT9_Augment_Commander_PartialAscension", "TFT9_Augment_Commander_RollingForDays",
    "TFT9_Augment_Commander_TeamingUp1", "TFT9_Augment_GreaterJeweledLotus",
    "TFT9_Augment_HealingOrbsI", "TFT9_Augment_HealingOrbsII", "TFT9_Augment_HedgeFund",
    "TFT9_Augment_HedgeFundPlus", "TFT9_Augment_IronAssets", "TFT9_Augment_JeweledLotus",
    "TFT9_Augment_LearningFromExperience2", "TFT9_Augment_Legend_HighEndSector",
    "TFT9_Augment_LongTimeCrafting", "TFT9_Augment_MissedConnections", "TFT9_Augment_OneTwosThree",
    "TFT9_Augment_PandorasItems2", "TFT9_Augment_PandorasRadiantBox", "TFT9_Augment_RiskyMoves",
    "TFT9_Augment_RollTheDice", "TFT9_Augment_SilverSpoon", "TFT9_Augment_TiniestTitanPlus",
    "TFT9_Augment_TonsOfStats", "TFT9_Augment_YouHaveMyBow", "TFT_Augment_AdvancedLoan",
    "TFT_Augment_AdvancedLoanPlus", "TFT_Augment_AnExaltedAdventure", "TFT_Augment_ArcaneViktory",
    "TFT_Augment_AuraFarming", "TFT_Augment_AwakenedSoul", "TFT_Augment_BacklineBlueprint",
    "TFT_Augment_BeltOverflow", "TFT_Augment_BirthdayReunion", "TFT_Augment_BodyguardTraining",
    "TFT_Augment_BoosterPack", "TFT_Augment_BoosterPackPlus", "TFT_Augment_BoxingLessons",
    "TFT_Augment_BranchingOut", "TFT_Augment_BranchingOutPlus", "TFT_Augment_BronzeForLife2",
    "TFT_Augment_BronzeForLifeI", "TFT_Augment_ChargeTransfer1", "TFT_Augment_ChargeTransfer2",
    "TFT_Augment_ClimbTheLadder1", "TFT_Augment_ClimbTheLadder2",
    "TFT_Augment_ClockworkAccelerator", "TFT_Augment_CognitiveOverload",
    "TFT_Augment_CognitiveTax", "TFT_Augment_CognitiveTaxPlus", "TFT_Augment_ComebackStory",
    "TFT_Augment_ComponentQuestBow", "TFT_Augment_ComponentQuestRod",
    "TFT_Augment_ComponentQuestSword", "TFT_Augment_ComponentQuestTear",
    "TFT_Augment_ConstructACompanion", "TFT_Augment_Corrosion", "TFT_Augment_CosmicRestart",
    "TFT_Augment_CraftedCrafting", "TFT_Augment_CryMeARiver", "TFT_Augment_DeadlierCaps",
    "TFT_Augment_Dhampyr1", "TFT_Augment_Dummify", "TFT_Augment_DuoQueue",
    "TFT_Augment_EarlyLearning", "TFT_Augment_EpicRolldown", "TFT_Augment_ExclusiveCustomization",
    "TFT_Augment_ExclusiveCustomization2", "TFT_Augment_ExpectedUnexpectedness",
    "TFT_Augment_Expedition", "TFT_Augment_ExplosiveGrowth", "TFT_Augment_ExplosiveGrowthPlus",
    "TFT_Augment_FeedTheFlames", "TFT_Augment_FeelingLucky", "TFT_Augment_FindYourCenter",
    "TFT_Augment_FiresalePlus", "TFT_Augment_Flexible", "TFT_Augment_ForgeAFriend",
    "TFT_Augment_ForgeRod", "TFT_Augment_ForgeSword", "TFT_Augment_ForgedInStrength",
    "TFT_Augment_ForwardThinking", "TFT_Augment_FrontlineFoundation", "TFT_Augment_FuriousBlows",
    "TFT_Augment_GainGold", "TFT_Augment_GiantAndMighty", "TFT_Augment_GildedSteel",
    "TFT_Augment_GlassCannonI", "TFT_Augment_GlassCannonII", "TFT_Augment_GoldenGamble",
    "TFT_Augment_GoldenGamblePlus", "TFT_Augment_GoldenGamblePlusPlus", "TFT_Augment_GroupHug1",
    "TFT_Augment_GroupHug2", "TFT_Augment_GuardbreakerSpirit", "TFT_Augment_HardCommit",
    "TFT_Augment_HeavyIsTheCrown", "TFT_Augment_HeroicGrabBagPlus",
    "TFT_Augment_HeroicGrabBagPlusPlus", "TFT_Augment_HighVoltage", "TFT_Augment_HoldTheLine",
    "TFT_Augment_HomeCooking", "TFT_Augment_InfinityProtection", "TFT_Augment_InvestedPlus",
    "TFT_Augment_InvestedPlusPlus", "TFT_Augment_ItemGargoyleStoneplate",
    "TFT_Augment_ItemSpiritVisage", "TFT_Augment_JustSlayer", "TFT_Augment_KickStart",
    "TFT_Augment_LateGameScaling", "TFT_Augment_LegionOfThrees", "TFT_Augment_Lineup",
    "TFT_Augment_LuxurySubscription", "TFT_Augment_MagicRoll", "TFT_Augment_MagicRollMinus",
    "TFT_Augment_MarksMan", "TFT_Augment_MayTheFoursBeWithYou", "TFT_Augment_MinMaxer",
    "TFT_Augment_MirroredMonetization", "TFT_Augment_Misfits", "TFT_Augment_MoneyHungry",
    "TFT_Augment_MoneyMonsoon", "TFT_Augment_MuseumHeist", "TFT_Augment_NoScoutNoPivot",
    "TFT_Augment_OneBuffTwoBuff", "TFT_Augment_PatienceIsAVirtue", "TFT_Augment_Pilfer",
    "TFT_Augment_PlotArmor", "TFT_Augment_PowerUp", "TFT_Augment_Replication",
    "TFT_Augment_RestartMission", "TFT_Augment_Retribution", "TFT_Augment_SavingsAccount",
    "TFT_Augment_SeraphimsStaff", "TFT_Augment_ShimmerscaleEssence", "TFT_Augment_SideEffects",
    "TFT_Augment_SizeMatters", "TFT_Augment_SliceOfLife", "TFT_Augment_SmallGrabBag",
    "TFT_Augment_SoloLeveling", "TFT_Augment_SpeedyDoubleKill", "TFT_Augment_SpreadingRoots",
    "TFT_Augment_SpreadingRootsPlus", "TFT_Augment_SubscriptionService", "TFT_Augment_Survivor",
    "TFT_Augment_SweetTreats", "TFT_Augment_SwordOverflow", "TFT_Augment_TacticiansKitchen",
    "TFT_Augment_TheBaronsLair", "TFT_Augment_TheDarkinBlade", "TFT_Augment_TheGoldenDragon",
    "TFT_Augment_TheTower", "TFT_Augment_TheVidalion", "TFT_Augment_TragicalBlade",
    "TFT_Augment_TraitTree", "TFT_Augment_TraitTreePlus", "TFT_Augment_TreasureHunt",
    "TFT_Augment_Trifecta1", "TFT_Augment_Trifecta2", "TFT_Augment_TwinGuardians",
    "TFT_Augment_TwoMuchValue", "TFT_Augment_TwoTanky", "TFT_Augment_Unforgotten",
    "TFT_Augment_UpwardMobility", "TFT_Augment_UrfsGambit", "TFT_Augment_WandOverflow",
    "TFT_Augment_WarmogsBuckle", "TFT_Augment_Warpath", "TFT_Augment_Waverider",
    "TFT_Augment_WeStickTogether", "TFT_Augment_WinOut", "TFT_Augment_WorthTheWaitGold",
    "TFT_Augment_WorthTheWaitPrismatic"
  ]

/-- `AUGMENTS`, in the encoding of the identifiers. -/
def augments : List GoString := augmentNames.map fun name => name.toUTF8.data.toList

set_option maxRecDepth 20000 in
theorem isChain_augments : augments.IsChain (· < ·) := by decide +kernel

/-- **No augment is listed twice**: the table is sorted. -/
theorem nodup_augments : augments.Nodup := by
  refine (List.isChain_iff_pairwise.mp isChain_augments).imp ?_
  rintro name _ hlt rfl
  exact List.lt_irrefl name hlt

end Api

end TftAnalytics
