/-!
# Directions of writing

The characters that are written from right to left and those that are written from left to right, as
of Unicode 3.2; all others go with their neighbours. The tables list the code points at which the
property changes, so a character has it when an odd number of them lie at or below it.
-/

namespace Colloquy.Text

/-- The code points at which being written from right to left changes, in order. -/
def leftwardEdges : List Nat :=
  [1470, 1471, 1472, 1473, 1475, 1476, 1488, 1515, 1520, 1525, 1563, 1564, 1567, 1568, 1569,
   1595, 1600, 1611, 1645, 1648, 1649, 1750, 1757, 1758, 1765, 1767, 1786, 1791, 1792, 1806,
   1808, 1809, 1810, 1837, 1920, 1958, 1969, 1970, 8207, 8208, 64285, 64286, 64287, 64297, 64298,
   64311, 64312, 64317, 64318, 64319, 64320, 64322, 64323, 64325, 64326, 64434, 64467, 64830,
   64848, 64912, 64914, 64968, 65008, 65021, 65136, 65141, 65142, 65277]

/-- The code points at which being written from left to right changes, in order. -/
def rightwardEdges : List Nat :=
  [65, 91, 97, 123, 170, 171, 181, 182, 186, 187, 192, 215, 216, 247, 248, 545, 546, 564, 592,
   686, 688, 697, 699, 706, 720, 722, 736, 741, 750, 751, 890, 891, 902, 903, 904, 907, 908, 909,
   910, 930, 931, 975, 976, 1014, 1024, 1155, 1162, 1231, 1232, 1270, 1272, 1274, 1280, 1296,
   1329, 1367, 1369, 1376, 1377, 1416, 1417, 1418, 2307, 2308, 2309, 2362, 2365, 2369, 2377,
   2381, 2384, 2385, 2392, 2402, 2404, 2417, 2434, 2436, 2437, 2445, 2447, 2449, 2451, 2473,
   2474, 2481, 2482, 2483, 2486, 2490, 2494, 2497, 2503, 2505, 2507, 2509, 2519, 2520, 2524,
   2526, 2527, 2530, 2534, 2546, 2548, 2555, 2565, 2571, 2575, 2577, 2579, 2601, 2602, 2609,
   2610, 2612, 2613, 2615, 2616, 2618, 2622, 2625, 2649, 2653, 2654, 2655, 2662, 2672, 2674,
   2677, 2691, 2692, 2693, 2700, 2701, 2702, 2703, 2706, 2707, 2729, 2730, 2737, 2738, 2740,
   2741, 2746, 2749, 2753, 2761, 2762, 2763, 2765, 2768, 2769, 2784, 2785, 2790, 2800, 2818,
   2820, 2821, 2829, 2831, 2833, 2835, 2857, 2858, 2865, 2866, 2868, 2870, 2874, 2877, 2879,
   2880, 2881, 2887, 2889, 2891, 2893, 2903, 2904, 2908, 2910, 2911, 2914, 2918, 2929, 2947,
   2948, 2949, 2955, 2958, 2961, 2962, 2966, 2969, 2971, 2972, 2973, 2974, 2976, 2979, 2981,
   2984, 2987, 2990, 2998, 2999, 3002, 3006, 3008, 3009, 3011, 3014, 3017, 3018, 3021, 3031,
   3032, 3047, 3059, 3073, 3076, 3077, 3085, 3086, 3089, 3090, 3113, 3114, 3124, 3125, 3130,
   3137, 3141, 3168, 3170, 3174, 3184, 3202, 3204, 3205, 3213, 3214, 3217, 3218, 3241, 3242,
   3252, 3253, 3258, 3262, 3263, 3264, 3269, 3271, 3273, 3274, 3276, 3285, 3287, 3294, 3295,
   3296, 3298, 3302, 3312, 3330, 3332, 3333, 3341, 3342, 3345, 3346, 3369, 3370, 3386, 3390,
   3393, 3398, 3401, 3402, 3405, 3415, 3416, 3424, 3426, 3430, 3440, 3458, 3460, 3461, 3479,
   3482, 3506, 3507, 3516, 3517, 3518, 3520, 3527, 3535, 3538, 3544, 3552, 3570, 3573, 3585,
   3633, 3634, 3636, 3648, 3655, 3663, 3676, 3713, 3715, 3716, 3717, 3719, 3721, 3722, 3723,
   3725, 3726, 3732, 3736, 3737, 3744, 3745, 3748, 3749, 3750, 3751, 3752, 3754, 3756, 3757,
   3761, 3762, 3764, 3773, 3774, 3776, 3781, 3782, 3783, 3792, 3802, 3804, 3806, 3840, 3864,
   3866, 3893, 3894, 3895, 3896, 3897, 3902, 3912, 3913, 3947, 3967, 3968, 3973, 3974, 3976,
   3980, 4030, 4038, 4039, 4045, 4047, 4048, 4096, 4130, 4131, 4136, 4137, 4139, 4140, 4141,
   4145, 4146, 4152, 4153, 4160, 4184, 4256, 4294, 4304, 4345, 4347, 4348, 4352, 4442, 4447,
   4515, 4520, 4602, 4608, 4615, 4616, 4679, 4680, 4681, 4682, 4686, 4688, 4695, 4696, 4697,
   4698, 4702, 4704, 4743, 4744, 4745, 4746, 4750, 4752, 4783, 4784, 4785, 4786, 4790, 4792,
   4799, 4800, 4801, 4802, 4806, 4808, 4815, 4816, 4823, 4824, 4847, 4848, 4879, 4880, 4881,
   4882, 4886, 4888, 4895, 4896, 4935, 4936, 4955, 4961, 4989, 5024, 5109, 5121, 5751, 5761,
   5787, 5792, 5873, 5888, 5901, 5902, 5906, 5920, 5938, 5941, 5943, 5952, 5970, 5984, 5997,
   5998, 6001, 6016, 6071, 6078, 6086, 6087, 6089, 6100, 6107, 6108, 6109, 6112, 6122, 6160,
   6170, 6176, 6264, 6272, 6313, 7680, 7836, 7840, 7930, 7936, 7958, 7960, 7966, 7968, 8006,
   8008, 8014, 8016, 8024, 8025, 8026, 8027, 8028, 8029, 8030, 8031, 8062, 8064, 8117, 8118,
   8125, 8126, 8127, 8130, 8133, 8134, 8141, 8144, 8148, 8150, 8156, 8160, 8173, 8178, 8181,
   8182, 8189, 8206, 8207, 8305, 8306, 8319, 8320, 8450, 8451, 8455, 8456, 8458, 8468, 8469,
   8470, 8473, 8478, 8484, 8485, 8486, 8487, 8488, 8489, 8490, 8494, 8495, 8498, 8499, 8506,
   8509, 8512, 8517, 8522, 8544, 8580, 9014, 9083, 9109, 9110, 9372, 9450, 12293, 12296, 12321,
   12330, 12337, 12342, 12344, 12349, 12353, 12439, 12445, 12448, 12449, 12539, 12540, 12544,
   12549, 12589, 12593, 12687, 12688, 12728, 12784, 12829, 12832, 12868, 12896, 12924, 12927,
   12977, 12992, 13004, 13008, 13055, 13056, 13175, 13179, 13278, 13280, 13311, 13312, 19894,
   19968, 40870, 40960, 42125, 44032, 55204, 55296, 64046, 64048, 64107, 64256, 64263, 64275,
   64280, 65313, 65339, 65345, 65371, 65382, 65471, 65474, 65480, 65482, 65488, 65490, 65496,
   65498, 65501, 66304, 66335, 66336, 66340, 66352, 66379, 66560, 66598, 66600, 66638, 118784,
   119030, 119040, 119079, 119082, 119143, 119146, 119155, 119171, 119173, 119180, 119210,
   119214, 119262, 119808, 119893, 119894, 119965, 119966, 119968, 119970, 119971, 119973,
   119975, 119977, 119981, 119982, 119994, 119995, 119996, 119997, 120001, 120002, 120004,
   120005, 120070, 120071, 120075, 120077, 120085, 120086, 120093, 120094, 120122, 120123,
   120127, 120128, 120133, 120134, 120135, 120138, 120145, 120146, 120484, 120488, 120778,
   131072, 173783, 194560, 195102, 983040, 1048574, 1048576, 1114110]

/-- Whether a character is written from right to left. -/
def isLeftward (c : Char) : Bool :=
  (leftwardEdges.takeWhile (· ≤ c.toNat)).length % 2 == 1

/-- Whether a character is written from left to right. -/
def isRightward (c : Char) : Bool :=
  (rightwardEdges.takeWhile (· ≤ c.toNat)).length % 2 == 1

example : (isLeftward 'א', isRightward 'a', isLeftward '1', isRightward '1') =
    (true, true, false, false) := by decide +kernel

end Colloquy.Text
