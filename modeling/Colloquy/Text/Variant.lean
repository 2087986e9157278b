/-!
# Variants of characters

What a character stands for in a name that counts the same however it is written. A capital stands
for its small letter; a variant in width, place or form for the plain characters; a character with
marks for itself without them and the marks; a Korean syllable for its letters; and a few characters
say nothing. Every other character stands for itself. The tables are those of Unicode 3.2, with the
small letters of later versions.
-/

namespace Colloquy.Text.Variant

/-- The characters that say nothing, as ranges. -/
def silent : List (Nat × Nat) :=
  [(0xAD, 0xAD), (0x34F, 0x34F), (0x1806, 0x1806), (0x180B, 0x180D), (0x200B, 0x200D),
   (0x2060, 0x2060), (0xFE00, 0xFE0F), (0xFEFF, 0xFEFF)]

/-- Characters that stand for one character, each with that one. -/
def ones : List String :=
  ["  ªa²2³3µμ¹1ºoÆæÐðØøÞþĐđĦħŁłŊŋŒœŦŧſsƁɓƂƃƄƅƆɔƇƈƉɖƊɗƋƌƎǝƏəƐɛƑƒƓɠƔɣƖɩƗɨƘƙƜɯƝɲƟɵƢƣƤƥƦʀƧƨƩʃƬƭƮʈ",
   "ƱʊƲʋƳƴƵƶƷʒƸƹƼƽǤǥǶƕǷƿȜȝȠƞȢȣȤȥȺⱥȻȼȽƚȾⱦɁɂɃƀɄʉɅʌɆɇɈɉɊɋɌɍɎɏʰhʱɦʲjʳrʴɹʵɻʶʁʷwʸyˠɣˡlˢsˣxˤʕ̀̀́́̓̓ͅι",
   "ͰͱͲͳʹʹͶͷ;;Ϳϳ··ΑαΒβΓγΔδΕεΖζΗηΘθΙιΚκΛλΜμΝνΞξΟοΠπΡρΣσΤτΥυΦφΧχΨψΩωςσϏϗϐβϑθϒυϕφϖπϘϙϚϛϜϝϞϟϠϡϢϣϤϥ",
   "ϦϧϨϩϪϫϬϭϮϯϰκϱρϲσϴθϵεϷϸϹσϺϻϽͻϾͼϿͽЂђЄєЅѕІіЈјЉљЊњЋћЏџАаБбВвГгДдЕеЖжЗзИиКкЛлМмНнОоПпРрСсТтУуФф",
   "ХхЦцЧчШшЩщЪъЫыЬьЭэЮюЯяѠѡѢѣѤѥѦѧѨѩѪѫѬѭѮѯѰѱѲѳѴѵѸѹѺѻѼѽѾѿҀҁҊҋҌҍҎҏҐґҒғҔҕҖҗҘҙҚқҜҝҞҟҠҡҢңҤҥҦҧҨҩҪҫҬҭ",
   "ҮүҰұҲҳҴҵҶҷҸҹҺһҼҽҾҿӀӏӃӄӅӆӇӈӉӊӋӌӍӎӔӕӘәӠӡӨөӶӷӺӻӼӽӾӿԀԁԂԃԄԅԆԇԈԉԊԋԌԍԎԏԐԑԒԓԔԕԖԗԘԙԚԛԜԝԞԟԠԡԢԣԤԥԦԧԨԩ",
   "ԪԫԬԭԮԯԱաԲբԳգԴդԵեԶզԷէԸըԹթԺժԻիԼլԽխԾծԿկՀհՁձՂղՃճՄմՅյՆնՇշՈոՉչՊպՋջՌռՍսՎվՏտՐրՑցՒւՓփՔքՕօՖֆ༌་ႠⴀႡⴁႢⴂ",
   "ႣⴃႤⴄႥⴅႦⴆႧⴇႨⴈႩⴉႪⴊႫⴋႬⴌႭⴍႮⴎႯⴏႰⴐႱⴑႲⴒႳⴓႴⴔႵⴕႶⴖႷⴗႸⴘႹⴙႺⴚႻⴛႼⴜႽⴝႾⴞႿⴟჀⴠჁⴡჂⴢჃⴣჄⴤჅⴥჇⴧჍⴭᎠꭰᎡꭱᎢꭲᎣꭳᎤꭴᎥꭵᎦꭶᎧꭷ",
   "ᎨꭸᎩꭹᎪꭺᎫꭻᎬꭼᎭꭽᎮꭾᎯꭿᎰꮀᎱꮁᎲꮂᎳꮃᎴꮄᎵꮅᎶꮆᎷꮇᎸꮈᎹꮉᎺꮊᎻꮋᎼꮌᎽꮍᎾꮎᎿꮏᏀꮐᏁꮑᏂꮒᏃꮓᏄꮔᏅꮕᏆꮖᏇꮗᏈꮘᏉꮙᏊꮚᏋꮛᏌꮜᏍꮝᏎꮞᏏꮟᏐꮠᏑꮡᏒꮢᏓꮣᏔꮤ",
   "ᏕꮥᏖꮦᏗꮧᏘꮨᏙꮩᏚꮪᏛꮫᏜꮬᏝꮭᏞꮮᏟꮯᏠꮰᏡꮱᏢꮲᏣꮳᏤꮴᏥꮵᏦꮶᏧꮷᏨꮸᏩꮹᏪꮺᏫꮻᏬꮼᏭꮽᏮꮾᏯꮿᏰᏸᏱᏹᏲᏺᏳᏻᏴᏼᏵᏽᲐაᲑბᲒგᲓდᲔეᲕვᲖზᲗთᲘიᲙკᲚლᲛმ",
   "ᲜნᲝოᲞპᲟჟᲠრᲡსᲢტᲣუᲤფᲥქᲦღᲧყᲨშᲩჩᲪცᲫძᲬწᲭჭᲮხᲯჯᲰჰᲱჱᲲჲᲳჳᲴჴᲵჵᲶჶᲷჷᲸჸᲹჹᲺჺᲽჽᲾჾᲿჿỺỻỼỽỾỿιι`\x60        ",
   "              ‑‐․.    ⁰0ⁱi⁴4⁵5⁶6⁷7⁸8⁹9⁺+⁻−⁼=⁽(⁾)ⁿn₀0₁1₂2₃3₄4₅5₆6₇7₈8₉9₊+₋−₌=₍(₎)ℂcℇɛℊgℋhℌh",
   "ℍhℎhℏħℐiℑiℒlℓlℕnℙpℚqℛrℜrℝrℤzΩωℨzKkℬbℭcℯeℰeℱfℲⅎℳmℴoℵאℶבℷגℸדℹiℽγℾγℿπ⅀∑ⅅdⅆdⅇeⅈiⅉjⅠiⅤvⅩxⅬlⅭcⅮd",
   "ⅯmⅰiⅴvⅹxⅼlⅽcⅾdⅿmↃↄ〈〈〉〉①1②2③3④4⑤5⑥6⑦7⑧8⑨9ⒶaⒷbⒸcⒹdⒺeⒻfⒼgⒽhⒾiⒿjⓀkⓁlⓂmⓃnⓄoⓅpⓆqⓇrⓈsⓉtⓊuⓋvⓌwⓍxⓎy",
   "Ⓩzⓐaⓑbⓒcⓓdⓔeⓕfⓖgⓗhⓘiⓙjⓚkⓛlⓜmⓝnⓞoⓟpⓠqⓡrⓢsⓣtⓤuⓥvⓦwⓧxⓨyⓩz⓪0ⰀⰰⰁⰱⰂⰲⰃⰳⰄⰴⰅⰵⰆⰶⰇⰷⰈⰸⰉⰹⰊⰺⰋⰻⰌⰼⰍⰽⰎⰾⰏⰿⰐⱀ",
   "ⰑⱁⰒⱂⰓⱃⰔⱄⰕⱅⰖⱆⰗⱇⰘⱈⰙⱉⰚⱊⰛⱋⰜⱌⰝⱍⰞⱎⰟⱏⰠⱐⰡⱑⰢⱒⰣⱓⰤⱔⰥⱕⰦⱖⰧⱗⰨⱘⰩⱙⰪⱚⰫⱛⰬⱜⰭⱝⰮⱞⰯⱟⱠⱡⱢɫⱣᵽⱤɽⱧⱨⱩⱪⱫⱬⱭɑⱮɱⱯɐⱰɒⱲⱳⱵⱶⱾȿ",
   "ⱿɀⲀⲁⲂⲃⲄⲅⲆⲇⲈⲉⲊⲋⲌⲍⲎⲏⲐⲑⲒⲓⲔⲕⲖⲗⲘⲙⲚⲛⲜⲝⲞⲟⲠⲡⲢⲣⲤⲥⲦⲧⲨⲩⲪⲫⲬⲭⲮⲯⲰⲱⲲⲳⲴⲵⲶⲷⲸⲹⲺⲻⲼⲽⲾⲿⳀⳁⳂⳃⳄⳅⳆⳇⳈⳉⳊⳋⳌⳍⳎⳏⳐⳑⳒⳓⳔⳕⳖⳗ",
   "ⳘⳙⳚⳛⳜⳝⳞⳟⳠⳡⳢⳣⳫⳬⳭⳮⳲⳳ⺟母⻳龟⼀一⼁丨⼂丶⼃丿⼄乙⼅亅⼆二⼇亠⼈人⼉儿⼊入⼋八⼌冂⼍冖⼎冫⼏几⼐凵⼑刀⼒力⼓勹⼔匕⼕匚⼖匸⼗十⼘卜⼙卩⼚厂⼛厶⼜又⼝口⼞囗⼟土⼠士⼡夂",
   "⼢夊⼣夕⼤大⼥女⼦子⼧宀⼨寸⼩小⼪尢⼫尸⼬屮⼭山⼮巛⼯工⼰己⼱巾⼲干⼳幺⼴广⼵廴⼶廾⼷弋⼸弓⼹彐⼺彡⼻彳⼼心⼽戈⼾戶⼿手⽀支⽁攴⽂文⽃斗⽄斤⽅方⽆无⽇日⽈曰⽉月⽊木⽋欠⽌止⽍歹⽎殳",
   "⽏毋⽐比⽑毛⽒氏⽓气⽔水⽕火⽖爪⽗父⽘爻⽙爿⽚片⽛牙⽜牛⽝犬⽞玄⽟玉⽠瓜⽡瓦⽢甘⽣生⽤用⽥田⽦疋⽧疒⽨癶⽩白⽪皮⽫皿⽬目⽭矛⽮矢⽯石⽰示⽱禸⽲禾⽳穴⽴立⽵竹⽶米⽷糸⽸缶⽹网⽺羊⽻羽",
   "⽼老⽽而⽾耒⽿耳⾀聿⾁肉⾂臣⾃自⾄至⾅臼⾆舌⾇舛⾈舟⾉艮⾊色⾋艸⾌虍⾍虫⾎血⾏行⾐衣⾑襾⾒見⾓角⾔言⾕谷⾖豆⾗豕⾘豸⾙貝⾚赤⾛走⾜足⾝身⾞車⾟辛⾠辰⾡辵⾢邑⾣酉⾤釆⾥里⾦金⾧長⾨門",
   "⾩阜⾪隶⾫隹⾬雨⾭靑⾮非⾯面⾰革⾱韋⾲韭⾳音⾴頁⾵風⾶飛⾷食⾸首⾹香⾺馬⾻骨⾼高⾽髟⾾鬥⾿鬯⿀鬲⿁鬼⿂魚⿃鳥⿄鹵⿅鹿⿆麥⿇麻⿈黃⿉黍⿊黑⿋黹⿌黽⿍鼎⿎鼓⿏鼠⿐鼻⿑齊⿒齒⿓龍⿔龜⿕龠",
   "　 〶〒〸十〹卄〺卅ㄱᄀㄲᄁㄳᆪㄴᄂㄵᆬㄶᆭㄷᄃㄸᄄㄹᄅㄺᆰㄻᆱㄼᆲㄽᆳㄾᆴㄿᆵㅀᄚㅁᄆㅂᄇㅃᄈㅄᄡㅅᄉㅆᄊㅇᄋㅈᄌㅉᄍㅊᄎㅋᄏㅌᄐㅍᄑㅎᄒㅏᅡㅐᅢㅑᅣㅒᅤㅓᅥㅔᅦㅕᅧㅖᅨㅗᅩㅘᅪ",
   "ㅙᅫㅚᅬㅛᅭㅜᅮㅝᅯㅞᅰㅟᅱㅠᅲㅡᅳㅢᅴㅣᅵㅤᅠㅥᄔㅦᄕㅧᇇㅨᇈㅩᇌㅪᇎㅫᇓㅬᇗㅭᇙㅮᄜㅯᇝㅰᇟㅱᄝㅲᄞㅳᄠㅴᄢㅵᄣㅶᄧㅷᄩㅸᄫㅹᄬㅺᄭㅻᄮㅼᄯㅽᄲㅾᄶㅿᅀㆀᅇㆁᅌㆂᇱㆃᇲㆄᅗㆅᅘ",
   "ㆆᅙㆇᆄㆈᆅㆉᆈㆊᆑㆋᆒㆌᆔㆍᆞㆎᆡ㆒一㆓二㆔三㆕四㆖上㆗中㆘下㆙甲㆚乙㆛丙㆜丁㆝天㆞地㆟人㉠ᄀ㉡ᄂ㉢ᄃ㉣ᄅ㉤ᄆ㉥ᄇ㉦ᄉ㉧ᄋ㉨ᄌ㉩ᄎ㉪ᄏ㉫ᄐ㉬ᄑ㉭ᄒ㊀一㊁二㊂三㊃四㊄五㊅六㊆七㊇八",
   "㊈九㊉十㊊月㊋火㊌水㊍木㊎金㊏土㊐日㊑株㊒有㊓社㊔名㊕特㊖財㊗祝㊘労㊙秘㊚男㊛女㊜適㊝優㊞印㊟注㊠項㊡休㊢写㊣正㊤上㊥中㊦下㊧左㊨右㊩医㊪宗㊫学㊬監㊭企㊮資㊯協㊰夜㋐ア㋑イ㋒ウ㋓エ",
   "㋔オ㋕カ㋖キ㋗ク㋘ケ㋙コ㋚サ㋛シ㋜ス㋝セ㋞ソ㋟タ㋠チ㋡ツ㋢テ㋣ト㋤ナ㋥ニ㋦ヌ㋧ネ㋨ノ㋩ハ㋪ヒ㋫フ㋬ヘ㋭ホ㋮マ㋯ミ㋰ム㋱メ㋲モ㋳ヤ㋴ユ㋵ヨ㋶ラ㋷リ㋸ル㋹レ㋺ロ㋻ワ㋼ヰ㋽ヱ㋾ヲꙀꙁꙂꙃ",
   "ꙄꙅꙆꙇꙈꙉꙊꙋꙌꙍꙎꙏꙐꙑꙒꙓꙔꙕꙖꙗꙘꙙꙚꙛꙜꙝꙞꙟꙠꙡꙢꙣꙤꙥꙦꙧꙨꙩꙪꙫꙬꙭꚀꚁꚂꚃꚄꚅꚆꚇꚈꚉꚊꚋꚌꚍꚎꚏꚐꚑꚒꚓꚔꚕꚖꚗꚘꚙꚚꚛꜢꜣꜤꜥꜦꜧꜨꜩꜪꜫꜬꜭꜮꜯꜲꜳꜴꜵꜶꜷ",
   "ꜸꜹꜺꜻꜼꜽꜾꜿꝀꝁꝂꝃꝄꝅꝆꝇꝈꝉꝊꝋꝌꝍꝎꝏꝐꝑꝒꝓꝔꝕꝖꝗꝘꝙꝚꝛꝜꝝꝞꝟꝠꝡꝢꝣꝤꝥꝦꝧꝨꝩꝪꝫꝬꝭꝮꝯꝹꝺꝻꝼꝽᵹꝾꝿꞀꞁꞂꞃꞄꞅꞆꞇꞋꞌꞍɥꞐꞑꞒꞓꞖꞗꞘꞙꞚꞛꞜꞝꞞꞟ",
   "ꞠꞡꞢꞣꞤꞥꞦꞧꞨꞩꞪɦꞫɜꞬɡꞭɬꞮɪꞰʞꞱʇꞲʝꞳꭓꞴꞵꞶꞷꞸꞹꞺꞻꞼꞽꞾꞿꟀꟁꟂꟃꟄꞔꟅʂꟆᶎꟇꟈꟉꟊꟐꟑꟖꟗꟘꟙꟵꟶ豈豈更更車車賈賈滑滑串串句句龜龜龜龜契契金金喇喇奈奈懶懶",
   "癩癩羅羅蘿蘿螺螺裸裸邏邏樂樂洛洛烙烙珞珞落落酪酪駱駱亂亂卵卵欄欄爛爛蘭蘭鸞鸞嵐嵐濫濫藍藍襤襤拉拉臘臘蠟蠟廊廊朗朗浪浪狼狼郎郎來來冷冷勞勞擄擄櫓櫓爐爐盧盧老老蘆蘆虜虜路路露露魯魯鷺鷺",
   "碌碌祿祿綠綠菉菉錄錄鹿鹿論論壟壟弄弄籠籠聾聾牢牢磊磊賂賂雷雷壘壘屢屢樓樓淚淚漏漏累累縷縷陋陋勒勒肋肋凜凜凌凌稜稜綾綾菱菱陵陵讀讀拏拏樂樂諾諾丹丹寧寧怒怒率率異異北北磻磻便便復復不不",
   "泌泌數數索索參參塞塞省省葉葉說說殺殺辰辰沈沈拾拾若若掠掠略略亮亮兩兩凉凉梁梁糧糧良良諒諒量量勵勵呂呂女女廬廬旅旅濾濾礪礪閭閭驪驪麗麗黎黎力力曆曆歷歷轢轢年年憐憐戀戀撚撚漣漣煉煉璉璉",
   "秊秊練練聯聯輦輦蓮蓮連連鍊鍊列列劣劣咽咽烈烈裂裂說說廉廉念念捻捻殮殮簾簾獵獵令令囹囹寧寧嶺嶺怜怜玲玲瑩瑩羚羚聆聆鈴鈴零零靈靈領領例例禮禮醴醴隸隸惡惡了了僚僚寮寮尿尿料料樂樂燎燎療療",
   "蓼蓼遼遼龍龍暈暈阮阮劉劉杻杻柳柳流流溜溜琉琉留留硫硫紐紐類類六六戮戮陸陸倫倫崙崙淪淪輪輪律律慄慄栗栗率率隆隆利利吏吏履履易易李李梨梨泥泥理理痢痢罹罹裏裏裡裡里里離離匿匿溺溺吝吝燐燐",
   "璘璘藺藺隣隣鱗鱗麟麟林林淋淋臨臨立立笠笠粒粒狀狀炙炙識識什什茶茶刺刺切切度度拓拓糖糖宅宅洞洞暴暴輻輻行行降降見見廓廓兀兀嗀嗀塚塚晴晴凞凞猪猪益益礼礼神神祥祥福福靖靖精精羽羽蘒蘒諸諸",
   "逸逸都都飯飯飼飼館館鶴鶴侮侮僧僧免免勉勉勤勤卑卑喝喝嘆嘆器器塀塀墨墨層層屮屮悔悔慨慨憎憎懲懲敏敏既既暑暑梅梅海海渚渚漢漢煮煮爫爫琢琢碑碑社社祉祉祈祈祐祐祖祖祝祝禍禍禎禎穀穀突突節節",
   "練練縉縉繁繁署署者者臭臭艹艹艹艹著著褐褐視視謁謁謹謹賓賓贈贈辶辶逸逸難難響響頻頻ﬠעﬡאﬢדﬣהﬤכﬥלﬦםﬧרﬨת﬩+ﭐٱﭑٱﭒٻﭓٻﭔٻﭕٻﭖپﭗپﭘپﭙپﭚڀﭛڀﭜڀﭝڀﭞٺ",
   "ﭟٺﭠٺﭡٺﭢٿﭣٿﭤٿﭥٿﭦٹﭧٹﭨٹﭩٹﭪڤﭫڤﭬڤﭭڤﭮڦﭯڦﭰڦﭱڦﭲڄﭳڄﭴڄﭵڄﭶڃﭷڃﭸڃﭹڃﭺچﭻچﭼچﭽچﭾڇﭿڇﮀڇﮁڇﮂڍﮃڍﮄڌﮅڌﮆڎﮇڎﮈڈﮉڈﮊژﮋژ",
   "ﮌڑﮍڑﮎکﮏکﮐکﮑکﮒگﮓگﮔگﮕگﮖڳﮗڳﮘڳﮙڳﮚڱﮛڱﮜڱﮝڱﮞںﮟںﮠڻﮡڻﮢڻﮣڻﮦہﮧہﮨہﮩہﮪھﮫھﮬھﮭھﮮےﮯےﯓڭﯔڭﯕڭﯖڭﯗۇﯘۇﯙۆﯚۆﯛۈﯜۈﯞۋ",
   "ﯟۋﯠۅﯡۅﯢۉﯣۉﯤېﯥېﯦېﯧېﯨىﯩىﯼیﯽیﯾیﯿی︱—︲–︳_︴_︵(︶)︷\x7b︸\x7d︹〔︺〕︻【︼】︽《︾》︿〈﹀〉﹁「﹂」﹃『﹄』﹍_﹎_﹏_﹐,﹑、﹒.﹔;",
   "﹕:﹖?﹗!﹘—﹙(﹚)﹛\x7b﹜\x7d﹝〔﹞〕﹟#﹠&﹡*﹢+﹣-﹤<﹥>﹦=﹨\\﹩$﹪%﹫@ﺀءﺍاﺎاﺏبﺐبﺑبﺒبﺓةﺔةﺕتﺖتﺗتﺘتﺙثﺚثﺛثﺜثﺝجﺞج",
   "ﺟجﺠجﺡحﺢحﺣحﺤحﺥخﺦخﺧخﺨخﺩدﺪدﺫذﺬذﺭرﺮرﺯزﺰزﺱسﺲسﺳسﺴسﺵشﺶشﺷشﺸشﺹصﺺصﺻصﺼصﺽضﺾضﺿضﻀضﻁطﻂطﻃطﻄطﻅظﻆظﻇظﻈظﻉعﻊعﻋع",
   "ﻌعﻍغﻎغﻏغﻐغﻑفﻒفﻓفﻔفﻕقﻖقﻗقﻘقﻙكﻚكﻛكﻜكﻝلﻞلﻟلﻠلﻡمﻢمﻣمﻤمﻥنﻦنﻧنﻨنﻩهﻪهﻫهﻬهﻭوﻮوﻯىﻰىﻱيﻲيﻳيﻴي！!＂\"＃#",
   "＄$％%＆&＇'（(）)＊*＋+，,－-．.／/０0１1２2３3４4５5６6７7８8９9：:；;＜<＝=＞>？?＠@ＡaＢbＣcＤdＥeＦfＧgＨhＩiＪjＫkＬlＭmＮnＯoＰp",
   "ＱqＲrＳsＴtＵuＶvＷwＸxＹyＺz［[＼\\］]＾^＿_｀\x60ａaｂbｃcｄdｅeｆfｇgｈhｉiｊjｋkｌlｍmｎnｏoｐpｑqｒrｓsｔtｕuｖvｗwｘxｙyｚz",
   "｛\x7b｜|｝\x7d～~｟⦅｠⦆｡。｢「｣」､、･・ｦヲｧァｨィｩゥｪェｫォｬャｭュｮョｯッｰーｱアｲイｳウｴエｵオｶカｷキｸクｹケｺコｻサｼシｽスｾセｿソﾀタﾁチﾂツﾃテﾄト",
   "ﾅナﾆニﾇヌﾈネﾉノﾊハﾋヒﾌフﾍヘﾎホﾏマﾐミﾑムﾒメﾓモﾔヤﾕユﾖヨﾗラﾘリﾙルﾚレﾛロﾜワﾝンﾞ゙ﾟ゚ﾠᅠﾡᄀﾢᄁﾣᆪﾤᄂﾥᆬﾦᆭﾧᄃﾨᄄﾩᄅﾪᆰﾫᆱﾬᆲﾭᆳﾮᆴﾯᆵﾰᄚﾱᄆ",
   "ﾲᄇﾳᄈﾴᄡﾵᄉﾶᄊﾷᄋﾸᄌﾹᄍﾺᄎﾻᄏﾼᄐﾽᄑﾾᄒￂᅡￃᅢￄᅣￅᅤￆᅥￇᅦￊᅧￋᅨￌᅩￍᅪￎᅫￏᅬￒᅭￓᅮￔᅯￕᅰￖᅱￗᅲￚᅳￛᅴￜᅵ￠¢￡£￢¬￤¦￥¥￦₩￨│￩←￪↑￫→￬↓",
   "￭■￮○𐐀𐐨𐐁𐐩𐐂𐐪𐐃𐐫𐐄𐐬𐐅𐐭𐐆𐐮𐐇𐐯𐐈𐐰𐐉𐐱𐐊𐐲𐐋𐐳𐐌𐐴𐐍𐐵𐐎𐐶𐐏𐐷𐐐𐐸𐐑𐐹𐐒𐐺𐐓𐐻𐐔𐐼𐐕𐐽𐐖𐐾𐐗𐐿𐐘𐑀𐐙𐑁𐐚𐑂𐐛𐑃𐐜𐑄𐐝𐑅𐐞𐑆𐐟𐑇𐐠𐑈𐐡𐑉𐐢𐑊𐐣𐑋𐐤𐑌𐐥𐑍𐐦𐑎𐐧𐑏𐒰𐓘𐒱𐓙𐒲𐓚",
   "𐒳𐓛𐒴𐓜𐒵𐓝𐒶𐓞𐒷𐓟𐒸𐓠𐒹𐓡𐒺𐓢𐒻𐓣𐒼𐓤𐒽𐓥𐒾𐓦𐒿𐓧𐓀𐓨𐓁𐓩𐓂𐓪𐓃𐓫𐓄𐓬𐓅𐓭𐓆𐓮𐓇𐓯𐓈𐓰𐓉𐓱𐓊𐓲𐓋𐓳𐓌𐓴𐓍𐓵𐓎𐓶𐓏𐓷𐓐𐓸𐓑𐓹𐓒𐓺𐓓𐓻𐕰𐖗𐕱𐖘𐕲𐖙𐕳𐖚𐕴𐖛𐕵𐖜𐕶𐖝𐕷𐖞𐕸𐖟𐕹𐖠𐕺𐖡𐕼𐖣",
   "𐕽𐖤𐕾𐖥𐕿𐖦𐖀𐖧𐖁𐖨𐖂𐖩𐖃𐖪𐖄𐖫𐖅𐖬𐖆𐖭𐖇𐖮𐖈𐖯𐖉𐖰𐖊𐖱𐖌𐖳𐖍𐖴𐖎𐖵𐖏𐖶𐖐𐖷𐖑𐖸𐖒𐖹𐖔𐖻𐖕𐖼𐲀𐳀𐲁𐳁𐲂𐳂𐲃𐳃𐲄𐳄𐲅𐳅𐲆𐳆𐲇𐳇𐲈𐳈𐲉𐳉𐲊𐳊𐲋𐳋𐲌𐳌𐲍𐳍𐲎𐳎𐲏𐳏𐲐𐳐𐲑𐳑𐲒𐳒𐲓𐳓𐲔𐳔𐲕𐳕",
   "𐲖𐳖𐲗𐳗𐲘𐳘𐲙𐳙𐲚𐳚𐲛𐳛𐲜𐳜𐲝𐳝𐲞𐳞𐲟𐳟𐲠𐳠𐲡𐳡𐲢𐳢𐲣𐳣𐲤𐳤𐲥𐳥𐲦𐳦𐲧𐳧𐲨𐳨𐲩𐳩𐲪𐳪𐲫𐳫𐲬𐳬𐲭𐳭𐲮𐳮𐲯𐳯𐲰𐳰𐲱𐳱𐲲𐳲𑢠𑣀𑢡𑣁𑢢𑣂𑢣𑣃𑢤𑣄𑢥𑣅𑢦𑣆𑢧𑣇𑢨𑣈𑢩𑣉𑢪𑣊𑢫𑣋𑢬𑣌𑢭𑣍𑢮𑣎𑢯𑣏",
   "𑢰𑣐𑢱𑣑𑢲𑣒𑢳𑣓𑢴𑣔𑢵𑣕𑢶𑣖𑢷𑣗𑢸𑣘𑢹𑣙𑢺𑣚𑢻𑣛𑢼𑣜𑢽𑣝𑢾𑣞𑢿𑣟𖹀𖹠𖹁𖹡𖹂𖹢𖹃𖹣𖹄𖹤𖹅𖹥𖹆𖹦𖹇𖹧𖹈𖹨𖹉𖹩𖹊𖹪𖹋𖹫𖹌𖹬𖹍𖹭𖹎𖹮𖹏𖹯𖹐𖹰𖹑𖹱𖹒𖹲𖹓𖹳𖹔𖹴𖹕𖹵𖹖𖹶𖹗𖹷𖹘𖹸𖹙𖹹𖹚𖹺𖹛𖹻𖹜𖹼",
   "𖹝𖹽𖹞𖹾𖹟𖹿𝐀a𝐁b𝐂c𝐃d𝐄e𝐅f𝐆g𝐇h𝐈i𝐉j𝐊k𝐋l𝐌m𝐍n𝐎o𝐏p𝐐q𝐑r𝐒s𝐓t𝐔u𝐕v𝐖w𝐗x𝐘y𝐙z𝐚a𝐛b𝐜c𝐝d𝐞e𝐟f𝐠g𝐡h𝐢i𝐣j𝐤k𝐥l𝐦m𝐧n𝐨o𝐩p",
   "𝐪q𝐫r𝐬s𝐭t𝐮u𝐯v𝐰w𝐱x𝐲y𝐳z𝐴a𝐵b𝐶c𝐷d𝐸e𝐹f𝐺g𝐻h𝐼i𝐽j𝐾k𝐿l𝑀m𝑁n𝑂o𝑃p𝑄q𝑅r𝑆s𝑇t𝑈u𝑉v𝑊w𝑋x𝑌y𝑍z𝑎a𝑏b𝑐c𝑑d𝑒e𝑓f𝑔g𝑖i𝑗j",
   "𝑘k𝑙l𝑚m𝑛n𝑜o𝑝p𝑞q𝑟r𝑠s𝑡t𝑢u𝑣v𝑤w𝑥x𝑦y𝑧z𝑨a𝑩b𝑪c𝑫d𝑬e𝑭f𝑮g𝑯h𝑰i𝑱j𝑲k𝑳l𝑴m𝑵n𝑶o𝑷p𝑸q𝑹r𝑺s𝑻t𝑼u𝑽v𝑾w𝑿x𝒀y𝒁z𝒂a𝒃b𝒄c",
   "𝒅d𝒆e𝒇f𝒈g𝒉h𝒊i𝒋j𝒌k𝒍l𝒎m𝒏n𝒐o𝒑p𝒒q𝒓r𝒔s𝒕t𝒖u𝒗v𝒘w𝒙x𝒚y𝒛z𝒜a𝒞c𝒟d𝒢g𝒥j𝒦k𝒩n𝒪o𝒫p𝒬q𝒮s𝒯t𝒰u𝒱v𝒲w𝒳x𝒴y𝒵z𝒶a𝒷b𝒸c𝒹d",
   "𝒻f𝒽h𝒾i𝒿j𝓀k𝓂m𝓃n𝓅p𝓆q𝓇r𝓈s𝓉t𝓊u𝓋v𝓌w𝓍x𝓎y𝓏z𝓐a𝓑b𝓒c𝓓d𝓔e𝓕f𝓖g𝓗h𝓘i𝓙j𝓚k𝓛l𝓜m𝓝n𝓞o𝓟p𝓠q𝓡r𝓢s𝓣t𝓤u𝓥v𝓦w𝓧x𝓨y𝓩z𝓪a",
   "𝓫b𝓬c𝓭d𝓮e𝓯f𝓰g𝓱h𝓲i𝓳j𝓴k𝓵l𝓶m𝓷n𝓸o𝓹p𝓺q𝓻r𝓼s𝓽t𝓾u𝓿v𝔀w𝔁x𝔂y𝔃z𝔄a𝔅b𝔇d𝔈e𝔉f𝔊g𝔍j𝔎k𝔏l𝔐m𝔑n𝔒o𝔓p𝔔q𝔖s𝔗t𝔘u𝔙v𝔚w𝔛x",
   "𝔜y𝔞a𝔟b𝔠c𝔡d𝔢e𝔣f𝔤g𝔥h𝔦i𝔧j𝔨k𝔩l𝔪m𝔫n𝔬o𝔭p𝔮q𝔯r𝔰s𝔱t𝔲u𝔳v𝔴w𝔵x𝔶y𝔷z𝔸a𝔹b𝔻d𝔼e𝔽f𝔾g𝕀i𝕁j𝕂k𝕃l𝕄m𝕆o𝕊s𝕋t𝕌u𝕍v𝕎w𝕏x",
   "𝕐y𝕒a𝕓b𝕔c𝕕d𝕖e𝕗f𝕘g𝕙h𝕚i𝕛j𝕜k𝕝l𝕞m𝕟n𝕠o𝕡p𝕢q𝕣r𝕤s𝕥t𝕦u𝕧v𝕨w𝕩x𝕪y𝕫z𝕬a𝕭b𝕮c𝕯d𝕰e𝕱f𝕲g𝕳h𝕴i𝕵j𝕶k𝕷l𝕸m𝕹n𝕺o𝕻p𝕼q𝕽r",
   "𝕾s𝕿t𝖀u𝖁v𝖂w𝖃x𝖄y𝖅z𝖆a𝖇b𝖈c𝖉d𝖊e𝖋f𝖌g𝖍h𝖎i𝖏j𝖐k𝖑l𝖒m𝖓n𝖔o𝖕p𝖖q𝖗r𝖘s𝖙t𝖚u𝖛v𝖜w𝖝x𝖞y𝖟z𝖠a𝖡b𝖢c𝖣d𝖤e𝖥f𝖦g𝖧h𝖨i𝖩j𝖪k",
   "𝖫l𝖬m𝖭n𝖮o𝖯p𝖰q𝖱r𝖲s𝖳t𝖴u𝖵v𝖶w𝖷x𝖸y𝖹z𝖺a𝖻b𝖼c𝖽d𝖾e𝖿f𝗀g𝗁h𝗂i𝗃j𝗄k𝗅l𝗆m𝗇n𝗈o𝗉p𝗊q𝗋r𝗌s𝗍t𝗎u𝗏v𝗐w𝗑x𝗒y𝗓z𝗔a𝗕b𝗖c𝗗d",
   "𝗘e𝗙f𝗚g𝗛h𝗜i𝗝j𝗞k𝗟l𝗠m𝗡n𝗢o𝗣p𝗤q𝗥r𝗦s𝗧t𝗨u𝗩v𝗪w𝗫x𝗬y𝗭z𝗮a𝗯b𝗰c𝗱d𝗲e𝗳f𝗴g𝗵h𝗶i𝗷j𝗸k𝗹l𝗺m𝗻n𝗼o𝗽p𝗾q𝗿r𝘀s𝘁t𝘂u𝘃v𝘄w",
   "𝘅x𝘆y𝘇z𝘈a𝘉b𝘊c𝘋d𝘌e𝘍f𝘎g𝘏h𝘐i𝘑j𝘒k𝘓l𝘔m𝘕n𝘖o𝘗p𝘘q𝘙r𝘚s𝘛t𝘜u𝘝v𝘞w𝘟x𝘠y𝘡z𝘢a𝘣b𝘤c𝘥d𝘦e𝘧f𝘨g𝘩h𝘪i𝘫j𝘬k𝘭l𝘮m𝘯n𝘰o𝘱p",
   "𝘲q𝘳r𝘴s𝘵t𝘶u𝘷v𝘸w𝘹x𝘺y𝘻z𝘼a𝘽b𝘾c𝘿d𝙀e𝙁f𝙂g𝙃h𝙄i𝙅j𝙆k𝙇l𝙈m𝙉n𝙊o𝙋p𝙌q𝙍r𝙎s𝙏t𝙐u𝙑v𝙒w𝙓x𝙔y𝙕z𝙖a𝙗b𝙘c𝙙d𝙚e𝙛f𝙜g𝙝h𝙞i",
   "𝙟j𝙠k𝙡l𝙢m𝙣n𝙤o𝙥p𝙦q𝙧r𝙨s𝙩t𝙪u𝙫v𝙬w𝙭x𝙮y𝙯z𝙰a𝙱b𝙲c𝙳d𝙴e𝙵f𝙶g𝙷h𝙸i𝙹j𝙺k𝙻l𝙼m𝙽n𝙾o𝙿p𝚀q𝚁r𝚂s𝚃t𝚄u𝚅v𝚆w𝚇x𝚈y𝚉z𝚊a𝚋b",
   "𝚌c𝚍d𝚎e𝚏f𝚐g𝚑h𝚒i𝚓j𝚔k𝚕l𝚖m𝚗n𝚘o𝚙p𝚚q𝚛r𝚜s𝚝t𝚞u𝚟v𝚠w𝚡x𝚢y𝚣z𝚨α𝚩β𝚪γ𝚫δ𝚬ε𝚭ζ𝚮η𝚯θ𝚰ι𝚱κ𝚲λ𝚳μ𝚴ν𝚵ξ𝚶ο𝚷π𝚸ρ𝚹θ𝚺σ𝚻τ𝚼υ",
   "𝚽φ𝚾χ𝚿ψ𝛀ω𝛁∇𝛂α𝛃β𝛄γ𝛅δ𝛆ε𝛇ζ𝛈η𝛉θ𝛊ι𝛋κ𝛌λ𝛍μ𝛎ν𝛏ξ𝛐ο𝛑π𝛒ρ𝛓σ𝛔σ𝛕τ𝛖υ𝛗φ𝛘χ𝛙ψ𝛚ω𝛛∂𝛜ε𝛝θ𝛞κ𝛟φ𝛠ρ𝛡π𝛢α𝛣β𝛤γ𝛥δ𝛦ε𝛧ζ𝛨η𝛩θ",
   "𝛪ι𝛫κ𝛬λ𝛭μ𝛮ν𝛯ξ𝛰ο𝛱π𝛲ρ𝛳θ𝛴σ𝛵τ𝛶υ𝛷φ𝛸χ𝛹ψ𝛺ω𝛻∇𝛼α𝛽β𝛾γ𝛿δ𝜀ε𝜁ζ𝜂η𝜃θ𝜄ι𝜅κ𝜆λ𝜇μ𝜈ν𝜉ξ𝜊ο𝜋π𝜌ρ𝜍σ𝜎σ𝜏τ𝜐υ𝜑φ𝜒χ𝜓ψ𝜔ω𝜕∂𝜖ε",
   "𝜗θ𝜘κ𝜙φ𝜚ρ𝜛π𝜜α𝜝β𝜞γ𝜟δ𝜠ε𝜡ζ𝜢η𝜣θ𝜤ι𝜥κ𝜦λ𝜧μ𝜨ν𝜩ξ𝜪ο𝜫π𝜬ρ𝜭θ𝜮σ𝜯τ𝜰υ𝜱φ𝜲χ𝜳ψ𝜴ω𝜵∇𝜶α𝜷β𝜸γ𝜹δ𝜺ε𝜻ζ𝜼η𝜽θ𝜾ι𝜿κ𝝀λ𝝁μ𝝂ν𝝃ξ",
   "𝝄ο𝝅π𝝆ρ𝝇σ𝝈σ𝝉τ𝝊υ𝝋φ𝝌χ𝝍ψ𝝎ω𝝏∂𝝐ε𝝑θ𝝒κ𝝓φ𝝔ρ𝝕π𝝖α𝝗β𝝘γ𝝙δ𝝚ε𝝛ζ𝝜η𝝝θ𝝞ι𝝟κ𝝠λ𝝡μ𝝢ν𝝣ξ𝝤ο𝝥π𝝦ρ𝝧θ𝝨σ𝝩τ𝝪υ𝝫φ𝝬χ𝝭ψ𝝮ω𝝯∇𝝰α",
   "𝝱β𝝲γ𝝳δ𝝴ε𝝵ζ𝝶η𝝷θ𝝸ι𝝹κ𝝺λ𝝻μ𝝼ν𝝽ξ𝝾ο𝝿π𝞀ρ𝞁σ𝞂σ𝞃τ𝞄υ𝞅φ𝞆χ𝞇ψ𝞈ω𝞉∂𝞊ε𝞋θ𝞌κ𝞍φ𝞎ρ𝞏π𝞐α𝞑β𝞒γ𝞓δ𝞔ε𝞕ζ𝞖η𝞗θ𝞘ι𝞙κ𝞚λ𝞛μ𝞜ν𝞝ξ",
   "𝞞ο𝞟π𝞠ρ𝞡θ𝞢σ𝞣τ𝞤υ𝞥φ𝞦χ𝞧ψ𝞨ω𝞩∇𝞪α𝞫β𝞬γ𝞭δ𝞮ε𝞯ζ𝞰η𝞱θ𝞲ι𝞳κ𝞴λ𝞵μ𝞶ν𝞷ξ𝞸ο𝞹π𝞺ρ𝞻σ𝞼σ𝞽τ𝞾υ𝞿φ𝟀χ𝟁ψ𝟂ω𝟃∂𝟄ε𝟅θ𝟆κ𝟇φ𝟈ρ𝟉π𝟎0",
   "𝟏1𝟐2𝟑3𝟒4𝟓5𝟔6𝟕7𝟖8𝟗9𝟘0𝟙1𝟚2𝟛3𝟜4𝟝5𝟞6𝟟7𝟠8𝟡9𝟢0𝟣1𝟤2𝟥3𝟦4𝟧5𝟨6𝟩7𝟪8𝟫9𝟬0𝟭1𝟮2𝟯3𝟰4𝟱5𝟲6𝟳7𝟴8𝟵9𝟶0𝟷1𝟸2𝟹3𝟺4𝟻5",
   "𝟼6𝟽7𝟾8𝟿9𞤀𞤢𞤁𞤣𞤂𞤤𞤃𞤥𞤄𞤦𞤅𞤧𞤆𞤨𞤇𞤩𞤈𞤪𞤉𞤫𞤊𞤬𞤋𞤭𞤌𞤮𞤍𞤯𞤎𞤰𞤏𞤱𞤐𞤲𞤑𞤳𞤒𞤴𞤓𞤵𞤔𞤶𞤕𞤷𞤖𞤸𞤗𞤹𞤘𞤺𞤙𞤻𞤚𞤼𞤛𞤽𞤜𞤾𞤝𞤿𞤞𞥀𞤟𞥁𞤠𞥂𞤡𞥃丽丽丸丸乁乁𠄢𠄢你你侮侮侻侻",
   "倂倂偺偺備備僧僧像像㒞㒞𠘺𠘺免免兔兔兤兤具具𠔜𠔜㒹㒹內內再再𠕋𠕋冗冗冤冤仌仌冬冬况况𩇟𩇟凵凵刃刃㓟㓟刻刻剆剆割割剷剷㔕㔕勇勇勉勉勤勤勺勺包包匆匆北北卉卉卑卑博博即即卽卽卿卿卿卿卿卿",
   "𠨬𠨬灰灰及及叟叟𠭣𠭣叫叫叱叱吆吆咞咞吸吸呈呈周周咢咢哶哶唐唐啓啓啣啣善善善善喙喙喫喫喳喳嗂嗂圖圖嘆嘆圗圗噑噑噴噴切切壮壮城城埴埴堍堍型型堲堲報報墬墬𡓤𡓤売売壷壷夆夆多多夢夢奢奢𡚨𡚨",
   "𡛪𡛪姬姬娛娛娧娧姘姘婦婦㛮㛮㛼𡍪嬈嬈嬾嬾嬾嬾𡧈𡧈寃寃寘寘寧寧寳寳𡬘𡬘寿寿将将当弳尢尢㞁㞁屠屠屮屮峀峀岍岍𡷤𡷤嵃嵃𡷦𡷦嵮嵮嵫嵫嵼嵼巡巡巢巢㠯㠯巽巽帨帨帽帽幩幩㡢㡢𢆃𢆃㡼㡼庰庰庳庳庶庶",
   "廊廊𪎒𪎒廾廾𢌱𢌱𢌱𢌱舁舁弢弢弢弢㣇㣇𣊸𣊸𦇚𦇚形形彫彫㣣㣣徚徚忍忍志志忹忹悁悁㤺㤺㤜㤜悔悔𢛔𢛔惇惇慈慈慌慌慎慎慌慌慺慺憎憎憲憲憤憤憯憯懞懞懲懲懶懶成成戛戛扝扝抱抱拔拔捐捐𢬌𢬌挽挽拼拼",
   "捨捨掃掃揤揤𢯱𢯱搢搢揅揅掩掩㨮㨮摩摩摾摾撝撝摷摷㩬㩬敏敏敬敬𣀊𣀊旣旣書書晉晉㬙㬙暑暑㬈㬈㫤㫤冒冒冕冕最最暜暜肭肭䏙䏙朗朗望望朡朡杞杞杓杓𣏃𣏃㭉㭉柺柺枅枅桒桒梅梅𣑭𣑭梎梎栟栟椔椔㮝㮝",
   "楂楂榣榣槪槪檨檨𣚣𣚣櫛櫛㰘㰘次次𣢧𣢧歔歔㱎㱎歲歲殟殟殺殺殻殻𣪍𣪍𡴋𡴋𣫺𣫺汎汎𣲼𣲼沿沿泍泍汧汧洖洖派派海海流流浩浩浸浸涅涅𣴞𣴞洴洴港港湮湮㴳㴳滋滋滇滇𣻑𣻑淹淹潮潮𣽞𣽞𣾎𣾎濆濆瀹瀹瀞瀞",
   "瀛瀛㶖㶖灊灊災災灷灷炭炭𠔥𠔥煅煅𤉣𤉣熜熜𤎫䎫爨爨爵爵牐牐𤘈𤘈犀犀犕犕𤜵𤜵𤠔𤠔獺獺王王㺬㺬玥玥㺸㺸㺸㺸瑇瑇瑜瑜瑱瑱璅璅瓊瓊㼛㼛甤甤𤰶𤰶甾甾𤲒𤲒異異𢆟𢆟瘐瘐𤾡𤾡𤾸𤾸𥁄𥁄㿼㿼䀈䀈直直𥃳𥃳",
   "𥃲𥃲𥄙𥄙𥄳𥄳眞眞真真真真睊睊䀹䀹瞋瞋䁆䁆䂖䂖𥐝𥐝硎硎碌碌磌磌䃣䃣𥘦𥘦祖祖𥚚𥚚𥛅𥛅福福秫秫䄯䄯穀穀穊穊穏穏𥥼𥥼𥪧𥪧𥪧𥪧竮窮䈂䈂𥮫𥮫篆篆築築䈧䈧𥲀𥲀糒糒䊠䊠糨糨糣糣紀紀𥾆𥾆絣絣䌁䌁緇緇",
   "縂縂繅繅䌴䌴𦈨𦈨𦉇𦉇䍙䍙𦋙𦋙罺罺𦌾𦌾羕羕翺翺者者𦓚𦓚𦔣𦔣聠聠𦖨𦖨聰聰𣍟𣍟䏕䏕育育脃脃䐋䐋脾脾媵媵𦞧𦞧𦞵𦞵𣎓𣎓𣎜𣎜舁舁舄舄辞辞䑫䑫芑芑芋芋芝芝劳劳花花芳芳芽芽苦苦𦬼𦬼若若茝茝荣荣莭莭",
   "茣茣莽莽菧菧著著荓荓菊菊菌菌菜菜𦰶𦰶𦵫𦵫𦳕𦳕䔫䔫蓱蓱蓳蓳蔖蔖𧏊𧏊蕤蕤𦼬𦼬䕝䕝䕡䕡𦾱𦾱𧃒𧃒䕫䕫虐虐虜虜虧虧虩虩蚩蚩蚈蚈蜎蜎蛢蛢蝹蝹蜨蜨蝫蝫螆螆䗗䵗蟡蟡蠁蠁䗹䗹衠衠衣衣𧙧𧙧裗裗裞裞䘵䘵",
   "裺裺㒻㒻𧢮𧢮𧥦𧥦䚾䚾䛇䛇誠誠諭諭變變豕豕𧲨𧲨貫貫賁賁贛贛起起𧼯𧼯𠠄𠠄跋跋趼趼跰跰𠣞𠣞軔軔輸輸𨗒𨗒𨗭𨗭邔邔郱郱鄑鄑𨜮𨜮鄛鄛鈸鈸鋗鋗鋘鋘鉼鉼鏹鏹鐕鐕𨯺𨯺開開䦕䦕閷閷𨵷𨵷䧦䧦雃雃嶲嶲霣霣",
   "𩅅𩅅𩈚𩈚䩮䩮䩶䩶韠韠𩐊𩐊䪲䪲𩒖𩒖頋頋頋頋頩頩𩖶𩖶飢飢䬳䬳餩餩馧馧駂駂駾駾䯎䯎𩬰𩬰鬒鬒鱀鱀鳽鳽䳎䳎䳭䳭鵧鵧𪃎𪃎䳸䳸𪄅𪄅𪈎𪈎𪊑𪊑麻麻䵖䵖黹黹黾黾鼅鼅鼏鼏鼖鼖鼻鼻𪘀𪘀"]

/-- Characters that stand for two, each with these. -/
def twos : List String :=
  ["¨ ̈¯ ̄´ ́¸ ̧ÀàÁáÂâÃãÄäÅåÇçÈèÉéÊêËëÌìÍíÎîÏïÑñÒòÓóÔôÕõÖöÙùÚúÛûÜüÝý",
   "ßssààááââããääååççèèééêêëëììííîîïïññòòóóôôõõööùùúúûûüüýýÿÿĀāāā",
   "ĂăăăĄąąąĆćććĈĉĉĉĊċċċČčččĎďďďĒēēēĔĕĕĕĖėėėĘęęęĚěěěĜĝĝĝĞğğğĠġġġ",
   "ĢģģģĤĥĥĥĨĩĩĩĪīīīĬĭĭĭĮįįįİi̇ĲijĳijĴĵĵĵĶķķķĹĺĺĺĻļļļĽľľľĿl·ŀl·ŃńńńŅņ",
   "ņņŇňňňŉʼnŌōōōŎŏŏŏŐőőőŔŕŕŕŖŗŗŗŘřřřŚśśśŜŝŝŝŞşşşŠšššŢţţţŤťťťŨũũũ",
   "ŪūūūŬŭŭŭŮůůůŰűűűŲųųųŴŵŵŵŶŷŷŷŸÿŹźźźŻżżżŽžžžƠơơơƯưưưǇljǈljǉljǊnjǋnj",
   "ǌnjǍǎǎǎǏǐǐǐǑǒǒǒǓǔǔǔǢǣǣǣǦǧǧǧǨǩǩǩǪǫǫǫǮǯǯǯǰǰǱdzǲdzǳdzǴǵǵǵǸǹǹǹǼǽǽǽǾǿ",
   "ǿǿȀȁȁȁȂȃȃȃȄȅȅȅȆȇȇȇȈȉȉȉȊȋȋȋȌȍȍȍȎȏȏȏȐȑȑȑȒȓȓȓȔȕȕȕȖȗȗȗȘșșșȚțțțȞȟ",
   "ȟȟȦȧȧȧȨȩȩȩȮȯȯȯȲȳȳȳ˘ ̆˙ ̇˚ ̊˛ ̨˜ ̃˝ ̋̈́̈́ͺ ι΄ ́ΆάΈέΉήΊίΌόΎύΏώΪϊΫϋάάέέήή",
   "ίίϊϊϋϋόόύύώώϓύϔϋЀѐЁёЃѓЇїЌќЍѝЎўЙйййѐѐёёѓѓїїќќѝѝўўѶѷѷѷӁӂӂӂӐӑӑӑ",
   "ӒӓӓӓӖӗӗӗӚӛӛӛӜӝӝӝӞӟӟӟӢӣӣӣӤӥӥӥӦӧӧӧӪӫӫӫӬӭӭӭӮӯӯӯӰӱӱӱӲӳӳӳӴӵӵӵӸӹӹӹ",
   "ևեւآآأأؤؤإإئئٵاٴٶوٴٷۇٴٸيٴۀۀۂۂۓۓऩऩऱऱऴऴक़क़ख़ख़ग़ग़ज़ज़ड़ड़ढ़ढ़फ़फ़य़य़োোৌৌড়ড়ঢ়ঢ়য়য়ਲ਼ਲ਼",
   "ਸ਼ਸ਼ਖ਼ਖ਼ਗ਼ਗ਼ਜ਼ਜ਼ਫ਼ਫ਼ୈୈୋୋୌୌଡ଼ଡ଼ଢ଼ଢ଼ஔஔொொோோௌௌైైೀೀೇೇೈೈೊೊൊൊോോൌൌේේොොෞෞำําຳໍາໜຫນໝຫມགྷགྷ",
   "ཌྷཌྷདྷདྷབྷབྷཛྷཛྷཀྵཀྵཱཱཱཱིིུུྲྀྲྀླྀླཱཱྀྀྀྒྷྒྷྜྷྜྷྡྷྡྷྦྷྦྷྫྷྫྷྐྵྐྵဦဦḀḁḁḁḂḃḃḃḄḅḅḅḆḇḇḇḊḋḋḋḌḍḍḍḎḏ",
   "ḏḏḐḑḑḑḒḓḓḓḘḙḙḙḚḛḛḛḞḟḟḟḠḡḡḡḢḣḣḣḤḥḥḥḦḧḧḧḨḩḩḩḪḫḫḫḬḭḭḭḰḱḱḱḲḳḳḳḴḵ",
   "ḵḵḶḷḷḷḺḻḻḻḼḽḽḽḾḿḿḿṀṁṁṁṂṃṃṃṄṅṅṅṆṇṇṇṈṉṉṉṊṋṋṋṔṕṕṕṖṗṗṗṘṙṙṙṚṛṛṛṞṟ",
   "ṟṟṠṡṡṡṢṣṣṣṪṫṫṫṬṭṭṭṮṯṯṯṰṱṱṱṲṳṳṳṴṵṵṵṶṷṷṷṼṽṽṽṾṿṿṿẀẁẁẁẂẃẃẃẄẅẅẅẆẇ",
   "ẇẇẈẉẉẉẊẋẋẋẌẍẍẍẎẏẏẏẐẑẑẑẒẓẓẓẔẕẕẕẖẖẗẗẘẘẙẙẚaʾẛṡẞssẠạạạẢảảảẸẹẹẹẺẻẻẻ",
   "ẼẽẽẽỈỉỉỉỊịịịỌọọọỎỏỏỏỤụụụỦủủủỲỳỳỳỴỵỵỵỶỷỷỷỸỹỹỹἀἀἁἁἈἀἉἁἐἐἑἑἘἐἙἑ",
   "ἠἠἡἡἨἠἩἡἰἰἱἱἸἰἹἱὀὀὁὁὈὀὉὁὐὐὑὑὙὑὠὠὡὡὨὠὩὡὰὰάάὲὲέέὴὴήήὶὶίίὸὸόόὺὺ",
   "ύύὼὼώώᾰᾰᾱᾱᾳαιᾶᾶᾸᾰᾹᾱᾺὰΆάᾼαι᾽ ̓᾿ ̓῀ ͂ῃηιῆῆῈὲΈέῊὴΉήῌηιῐῐῑῑῖῖῘῐῙῑῚὶΊίῠῠ",
   "ῡῡῤῤῥῥῦῦῨῠῩῡῪὺΎύῬῥῳωιῶῶῸὸΌόῺὼΏώῼωι´ ́῾ ̔‗ ̳‥..″′′‶‵‵‼!!‾ ̅⁇??⁈?!⁉!?₨rs℃°c℉°f",
   "№no℠sm™tmÅå⅟1⁄ⅡiiⅣivⅥviⅨixⅪxiⅱiiⅳivⅵviⅸixⅺxi↚↚↛↛↮↮⇍⇍⇎⇎⇏⇏∄∄∉∉∌∌∤∤∦∦∬∫∫∯∮∮≁≁≄≄",
   "≇≇≉≉≠≠≢≢≭≭≮≮≯≯≰≰≱≱≴≴≵≵≸≸≹≹⊀⊀⊁⊁⊄⊄⊅⊅⊈⊈⊉⊉⊬⊬⊭⊭⊮⊮⊯⊯⋠⋠⋡⋡⋢⋢⋣⋣⋪⋪⋫⋫⋬⋬",
   "⋭⋭⑩10⑪11⑫12⑬13⑭14⑮15⑯16⑰17⑱18⑲19⑳20⒈1.⒉2.⒊3.⒋4.⒌5.⒍6.⒎7.⒏8.⒐9.⩵==⫝̸⫝̸ががぎぎぐぐげげごござざじじ",
   "ずずぜぜぞぞだだぢぢづづででどどばばぱぱびびぴぴぶぶぷぷべべぺぺぼぼぽぽゔゔ゛ ゙゜ ゚ゞゞゟよりガガギギググゲゲゴゴザザジジ",
   "ズズゼゼゾゾダダヂヂヅヅデデドドババパパビビピピブブププベベペペボボポポヴヴヷヷヸヸヹヹヺヺヾヾヿコト㉑21㉒22㉓23㉔24㉕25",
   "㉖26㉗27㉘28㉙29㉚30㉛31㉜32㉝33㉞34㉟35㉮가㉯나㉰다㉱라㉲마㉳바㉴사㉵아㉶자㉷차㉸카㉹타㉺파㉻하㊱36㊲37㊳38㊴39㊵40㊶41",
   "㊷42㊸43㊹44㊺45㊻46㊼47㊽48㊾49㊿50㋀1月㋁2月㋂3月㋃4月㋄5月㋅6月㋆7月㋇8月㋈9月㌔キロ㌧トン㌨ナノ㌿ホン㍉ミリ㍒リラ㍕レム㍘0点㍙1点㍚2点㍛3点㍜4点",
   "㍝5点㍞6点㍟7点㍠8点㍡9点㍲da㍳au㍵ov㍶pc㍻平成㍼昭和㍽大正㍾明治㎀pa㎁na㎂μa㎃ma㎄ka㎅kb㎆mb㎇gb㎊pf㎋nf㎌μf㎍μg㎎mg㎏kg㎐hz㎕μl㎖ml",
   "㎗dl㎘kl㎙fm㎚nm㎛μm㎜mm㎝cm㎞km㎡m2㎥m3㎩pa㎰ps㎱ns㎲μs㎳ms㎴pv㎵nv㎶μv㎷mv㎸kv㎹mv㎺pw㎻nw㎼μw㎽mw㎾kw㎿mw㏀kω㏁mω㏃bq",
   "㏄cc㏅cd㏈db㏉gy㏊ha㏋hp㏌in㏍kk㏎km㏏kt㏐lm㏑ln㏓lx㏔mb㏗ph㏚pr㏛sr㏜sv㏝wb㏠1日㏡2日㏢3日㏣4日㏤5日㏥6日㏦7日㏧8日㏨9日ﬀffﬁfi",
   "ﬂflﬅstﬆstﬓմնﬔմեﬕմիﬖվնﬗմխיִיִײַײַשׁשׁשׂשׂאַאַאָאָאּאּבּבּגּגּדּדּהּהּוּוּזּזּטּטּיּיּךּךּכּכּלּלּמּמּנּנּסּסּףּףּ",
   "פּפּצּצּקּקּרּרּשּשּתּתּוֹוֹבֿבֿכֿכֿפֿפֿﭏאלﮤۀﮥۀﮰۓﮱۓﯝۇٴﰅبجﰆبحﰇبخﰈبمﰉبىﰊبيﰋتجﰌتحﰍتخﰎتمﰏتىﰐتيﰑثجﰒثم",
   "ﰓثىﰔثيﰕجحﰖجمﰗحجﰘحمﰙخجﰚخحﰛخمﰜسجﰝسحﰞسخﰟسمﰠصحﰡصمﰢضجﰣضحﰤضخﰥضمﰦطحﰧطمﰨظمﰩعجﰪعمﰫغجﰬغمﰭفجﰮفحﰯفخﰰفم",
   "ﰱفىﰲفيﰳقحﰴقمﰵقىﰶقيﰷكاﰸكجﰹكحﰺكخﰻكلﰼكمﰽكىﰾكيﰿلجﱀلحﱁلخﱂلمﱃلىﱄليﱅمجﱆمحﱇمخﱈممﱉمىﱊميﱋنجﱌنحﱍنخﱎنم",
   "ﱏنىﱐنيﱑهجﱒهمﱓهىﱔهيﱕيجﱖيحﱗيخﱘيمﱙيىﱚييﱛذٰﱜرٰﱝىٰﱪبرﱫبزﱬبمﱭبنﱮبىﱯبيﱰترﱱتزﱲتمﱳتنﱴتىﱵتيﱶثرﱷثزﱸثم",
   "ﱹثنﱺثىﱻثيﱼفىﱽفيﱾقىﱿقيﲀكاﲁكلﲂكمﲃكىﲄكيﲅلمﲆلىﲇليﲈماﲉممﲊنرﲋنزﲌنمﲍننﲎنىﲏنيﲐىٰﲑيرﲒيزﲓيمﲔينﲕيىﲖيي",
   "ﲜبجﲝبحﲞبخﲟبمﲠبهﲡتجﲢتحﲣتخﲤتمﲥتهﲦثمﲧجحﲨجمﲩحجﲪحمﲫخجﲬخمﲭسجﲮسحﲯسخﲰسمﲱصحﲲصخﲳصمﲴضجﲵضحﲶضخﲷضمﲸطحﲹظم",
   "ﲺعجﲻعمﲼغجﲽغمﲾفجﲿفحﳀفخﳁفمﳂقحﳃقمﳄكجﳅكحﳆكخﳇكلﳈكمﳉلجﳊلحﳋلخﳌلمﳍلهﳎمجﳏمحﳐمخﳑممﳒنجﳓنحﳔنخﳕنمﳖنهﳗهج",
   "ﳘهمﳙهٰﳚيجﳛيحﳜيخﳝيمﳞيهﳡبمﳢبهﳣتمﳤتهﳥثمﳦثهﳧسمﳨسهﳩشمﳪشهﳫكلﳬكمﳭلمﳮنمﳯنهﳰيمﳱيهﳵطىﳶطيﳷعىﳸعيﳹغىﳺغي",
   "ﳻسىﳼسيﳽشىﳾشيﳿحىﴀحيﴁجىﴂجيﴃخىﴄخيﴅصىﴆصيﴇضىﴈضيﴉشجﴊشحﴋشخﴌشمﴍشرﴎسرﴏصرﴐضرﴑطىﴒطيﴓعىﴔعيﴕغىﴖغيﴗسىﴘسي",
   "ﴙشىﴚشيﴛحىﴜحيﴝجىﴞجيﴟخىﴠخيﴡصىﴢصيﴣضىﴤضيﴥشجﴦشحﴧشخﴨشمﴩشرﴪسرﴫصرﴬضرﴭشجﴮشحﴯشخﴰشمﴱسهﴲشهﴳطمﴴسجﴵسحﴶسخ",
   "ﴷشجﴸشحﴹشخﴺطمﴻظمﴼاًﴽاً︰..﹉ ̅﹊ ̅﹋ ̅﹌ ̅ﹰ ًﹱـًﹲ ٌﹴ ٍﹶ َﹷـَﹸ ُﹹـُﹺ ِﹻـِﹼ ّﹽـّﹾ ْﹿـْﺁآﺂآﺃأﺄأ",
   "ﺅؤﺆؤﺇإﺈإﺉئﺊئﺋئﺌئﻻلاﻼلا￣ ̄𝅗𝅥𝅗𝅥𝅘𝅥𝅘𝅥𝆹𝅥𝆹𝅥𝆺𝅥𝆺𝅥"]

/-- Characters that stand for three, each with these. -/
def threes : List String :=
  ["¼1⁄4½1⁄2¾3⁄4ǄdžǅdžǆdžǕǖǖǖǗǘǘǘǙǚǚǚǛǜǜǜǞǟǟǟǠǡǡǡǬǭǭǭǺǻǻǻ",
   "ȪȫȫȫȬȭȭȭȰȱȱȱ΅ ̈́ΐΐΰΰೋೋෝෝཷྲཱྀཹླཱྀḈḉḉḉḔḕḕḕḖḗḗḗḜḝḝḝḮḯ",
   "ḯḯḸḹḹḹṌṍṍṍṎṏṏṏṐṑṑṑṒṓṓṓṜṝṝṝṤṥṥṥṦṧṧṧṨṩṩṩṸṹṹṹṺṻ",
   "ṻṻẤấấấẦầầầẨẩẩẩẪẫẫẫẬậậậẮắắắẰằằằẲẳẳẳẴẵẵẵẶặặặẾế",
   "ếếỀềềềỂểểểỄễễễỆệệệỐốốốỒồồồỔổổổỖỗỗỗỘộộộỚớớớỜờ",
   "ờờỞởởởỠỡỡỡỢợợợỨứứứỪừừừỬửửửỮữữữỰựựựἂἂἃἃἄἄἅἅἆἆ",
   "ἇἇἊἂἋἃἌἄἍἅἎἆἏἇἒἒἓἓἔἔἕἕἚἒἛἓἜἔἝἕἢἢἣἣἤἤἥἥἦἦἧἧἪἢ",
   "ἫἣἬἤἭἥἮἦἯἧἲἲἳἳἴἴἵἵἶἶἷἷἺἲἻἳἼἴἽἵἾἶἿἷὂὂὃὃὄὄὅὅὊὂ",
   "ὋὃὌὄὍὅὒὒὓὓὔὔὕὕὖὖὗὗὛὓὝὕὟὗὢὢὣὣὤὤὥὥὦὦὧὧὪὢὫὣὬὤὭὥ",
   "ὮὦὯὧᾀἀιᾁἁιᾈἀιᾉἁιᾐἠιᾑἡιᾘἠιᾙἡιᾠὠιᾡὡιᾨὠιᾩὡιᾲὰιᾴάιᾷᾶι῁ ̈͂ῂὴιῄήιῇῆι῍ ̓̀",
   "῎ ̓́῏ ̓͂ῒῒΐΐῗῗ῝ ̔̀῞ ̔́῟ ̔͂ῢῢΰΰῧῧ῭ ̈̀΅ ̈́ῲὼιῴώιῷῶι…...‴′′′‷‵‵‵℀a/c℁a/s℅c/o",
   "℆c/u℡tel⅓1⁄3⅔2⁄3⅕1⁄5⅖2⁄5⅗3⁄5⅘4⁄5⅙1⁄6⅚5⁄6⅛1⁄8⅜3⁄8⅝5⁄8⅞7⁄8ⅢiiiⅦviiⅫxiiⅲiiiⅶviiⅻxii∭∫∫∫∰∮∮∮",
   "⑴(1)⑵(2)⑶(3)⑷(4)⑸(5)⑹(6)⑺(7)⑻(8)⑼(9)⒑10.⒒11.⒓12.⒔13.⒕14.⒖15.⒗16.⒘17.⒙18.⒚19.⒛20.⒜(a)⒝(b)",
   "⒞(c)⒟(d)⒠(e)⒡(f)⒢(g)⒣(h)⒤(i)⒥(j)⒦(k)⒧(l)⒨(m)⒩(n)⒪(o)⒫(p)⒬(q)⒭(r)⒮(s)⒯(t)⒰(u)⒱(v)⒲(w)⒳(x)",
   "⒴(y)⒵(z)⩴::=⩶===㈀(ᄀ)㈁(ᄂ)㈂(ᄃ)㈃(ᄅ)㈄(ᄆ)㈅(ᄇ)㈆(ᄉ)㈇(ᄋ)㈈(ᄌ)㈉(ᄎ)㈊(ᄏ)㈋(ᄐ)㈌(ᄑ)㈍(ᄒ)㈠(一)㈡(二)㈢(三)㈣(四)",
   "㈤(五)㈥(六)㈦(七)㈧(八)㈨(九)㈩(十)㈪(月)㈫(火)㈬(水)㈭(木)㈮(金)㈯(土)㈰(日)㈱(株)㈲(有)㈳(社)㈴(名)㈵(特)㈶(財)㈷(祝)㈸(労)㈹(代)",
   "㈺(呼)㈻(学)㈼(監)㈽(企)㈾(資)㈿(協)㉀(祭)㉁(休)㉂(自)㉃(至)㋉10月㋊11月㋋12月㌃アール㌅インチ㌆ウォン㌉オンス㌊オーム㌋カイリ㌜ケース㌝コルナ㌢センチ",
   "㌣セント㌥デシ㌦ドル㌩ノット㌪ハイツ㌰ピコ㌱ビル㌵フラン㌷ペソ㌹ヘルツ㍁ホール㍂ホーン㍄マイル㍅マッハ㍆マルク㍋メガ㍏ヤール㍐ユアン㍗ワット㍢10点㍣11点㍤12点",
   "㍥13点㍦14点㍧15点㍨16点㍩17点㍪18点㍫19点㍬20点㍭21点㍮22点㍯23点㍰24点㍱hpa㍴bar㎈cal㎑khz㎒mhz㎓ghz㎔thz㎟mm2㎠cm2㎢km2",
   "㎣mm3㎤cm3㎦km3㎧m∕s㎪kpa㎫mpa㎬gpa㎭rad㏇co.㏒log㏕mil㏖mol㏙ppm㏩10日㏪11日㏫12日㏬13日㏭14日㏮15日㏯16日㏰17日㏱18日",
   "㏲19日㏳20日㏴21日㏵22日㏶23日㏷24日㏸25日㏹26日㏺27日㏻28日㏼29日㏽30日㏾31日ﬃffiﬄfflשּׁשּׁשּׂשּׂﯪئاﯫئاﯬئەﯭئەﯮئو",
   "ﯯئوﯰئۇﯱئۇﯲئۆﯳئۆﯴئۈﯵئۈﯶئېﯷئېﯸئېﯹئىﯺئىﯻئىﰀئجﰁئحﰂئمﰃئىﰄئيﱞ ٌّﱟ ٍّﱠ َّﱡ ُّ",
   "ﱢ ِّﱣ ّٰﱤئرﱥئزﱦئمﱧئنﱨئىﱩئيﲗئجﲘئحﲙئخﲚئمﲛئهﳟئمﳠئهﳲـَّﳳـُّﳴـِّﵐتجمﵑتحجﵒتحجﵓتحم",
   "ﵔتخمﵕتمجﵖتمحﵗتمخﵘجمحﵙجمحﵚحميﵛحمىﵜسحجﵝسجحﵞسجىﵟسمحﵠسمحﵡسمجﵢسممﵣسممﵤصححﵥصححﵦصممﵧشحمﵨشحمﵩشجي",
   "ﵪشمخﵫشمخﵬشممﵭشممﵮضحىﵯضخمﵰضخمﵱطمحﵲطمحﵳطممﵴطميﵵعجمﵶعممﵷعممﵸعمىﵹغممﵺغميﵻغمىﵼفخمﵽفخمﵾقمحﵿقمم",
   "ﶀلحمﶁلحيﶂلحىﶃلججﶄلججﶅلخمﶆلخمﶇلمحﶈلمحﶉمحجﶊمحمﶋمحيﶌمجحﶍمجمﶎمخجﶏمخمﶒمجخﶓهمجﶔهممﶕنحمﶖنحىﶗنجم",
   "ﶘنجمﶙنجىﶚنميﶛنمىﶜيممﶝيممﶞبخيﶟتجيﶠتجىﶡتخيﶢتخىﶣتميﶤتمىﶥجميﶦجحىﶧجمىﶨسخىﶩصحيﶪشحيﶫضحيﶬلجيﶭلمي",
   "ﶮيحيﶯيجيﶰيميﶱمميﶲقميﶳنحيﶴقمحﶵلحمﶶعميﶷكميﶸنجحﶹمخيﶺلجمﶻكممﶼلجمﶽنجحﶾجحيﶿحجيﷀمجيﷁفميﷂبحيﷃكمم",
   "ﷄعجمﷅصممﷆسخيﷇنجيﷰصلےﷱقلےﷹصلىﻵلآﻶلآﻷلأﻸلأﻹلإﻺلإ𝅘𝅥𝅮𝅘𝅥𝅮𝅘𝅥𝅯𝅘𝅥𝅯𝅘𝅥𝅰𝅘𝅥𝅰𝅘𝅥𝅱𝅘𝅥𝅱𝅘𝅥𝅲𝅘𝅥𝅲𝆹𝅥𝅮𝆹𝅥𝅮𝆺𝅥𝅮𝆺𝅥𝅮𝆹𝅥𝅯𝆹𝅥𝅯𝆺𝅥𝅯𝆺𝅥𝅯"]

/-- Characters that stand for four, each with these. -/
def fours : List String :=
  ["ᾂἂιᾃἃιᾄἄιᾅἅιᾆἆιᾇἇιᾊἂιᾋἃιᾌἄιᾍἅιᾎἆιᾏἇιᾒἢιᾓἣιᾔἤιᾕἥιᾖἦιᾗἧι",
   "ᾚἢιᾛἣιᾜἤιᾝἥιᾞἦιᾟἧιᾢὢιᾣὣιᾤὤιᾥὥιᾦὦιᾧὧιᾪὢιᾫὣιᾬὤιᾭὥιᾮὦιᾯὧι",
   "⁗′′′′Ⅷviiiⅷviii⑽(10)⑾(11)⑿(12)⒀(13)⒁(14)⒂(15)⒃(16)⒄(17)⒅(18)⒆(19)⒇(20)⨌∫∫∫∫㈎(가)㈏(나)㈐(다)",
   "㈑(라)㈒(마)㈓(바)㈔(사)㈕(아)㈖(자)㈗(차)㈘(카)㈙(타)㈚(파)㈛(하)㈜(주)㌁アルファ㌈エーカー㌌カラット㌍カロリー㌎ガロン㌏ガンマ",
   "㌐ギガ㌑ギニー㌒キュリー㌘グラム㌛クローネ㌞コーポ㌟サイクル㌤ダース㌬パーツ㌯ピクル㌳フィート㌸ペニヒ㌺ペンス㌼ベータ㌾ボルト㍃マイクロ㍈ミクロン㍍メートル",
   "㍎ヤード㍑リットル㍓ルピー㍿株式会社㎉kcal㎨m∕s2㏂a.m.㏆c∕kg㏘p.m.ﷲاللهﷳاكبرﷴمحمدﷵصلعمﷶرسولﷷعليهﷸوسلم﷼ریال"]

/-- Characters that stand for more than four, each with these. -/
def longer : List (Char × String) :=
  [('㌀', "アパート"), ('㌂', "アンペア"), ('㌄', "イニング"), ('㌗', "キロワット"), ('㌠', "サンチーム"), ('㌡', "シリング"),
   ('㌭', "バーレル"), ('㌶', "ヘクタール"), ('㌻', "ページ"), ('㌽', "ポイント"), ('㍀', "ポンド"), ('㍇', "マンション"),
   ('㍌', "メガトン"), ('㍔', "ルーブル"), ('㎮', "rad∕s"), ('㌇', "エスクード"), ('㌓', "ギルダー"),
   ('㌕', "キログラム"), ('㌖', "キロメートル"), ('㌙', "グラムトン"), ('㌚', "クルゼイロ"), ('㌫', "パーセント"),
   ('㌮', "ピアストル"), ('㌲', "ファラッド"), ('㌴', "ブッシェル"), ('㍊', "ミリバール"), ('㍖', "レントゲン"),
   ('㎯', "rad∕s2"), ('ﷻ', "جل جلاله"), ('ﷺ', "صلى الله عليه وسلم")]

/-- What a character stands for by a list of groups of one character and `n` that it stands for. -/
def inGroups (n : Nat) (c : Char) : List Char → Option (List Char)
  | [] => none
  | d :: r => if d = c then some (r.take n) else inGroups n c (r.drop n)
termination_by cs => cs.length
decreasing_by simp only [List.length_drop, List.length_cons]; omega

/-- The letters of a Korean syllable: a first, a middle, and perhaps a last one. -/
def syllable? (c : Char) : Option (List Char) :=
  if 0xAC00 ≤ c.toNat && c.toNat ≤ 0xD7A3 then
    let n := c.toNat - 0xAC00
    let last := n % 28
    some ([Char.ofNat (0x1100 + n / 588), Char.ofNat (0x1161 + n % 588 / 28)]
      ++ if last = 0 then [] else [Char.ofNat (0x11A7 + last)])
  else none

/-- The characters that a character stands for. -/
def plain (c : Char) : List Char :=
  if c.toNat < 0x80 then [c.toLower]
  else if silent.any fun (low, high) => low ≤ c.toNat && c.toNat ≤ high then []
  else
    let groups := fun (n : Nat) (rows : List String) => inGroups n c (rows.flatMap String.toList)
    (syllable? c <|> groups 1 ones <|> groups 2 twos <|> groups 3 threes <|> groups 4 fours
      <|> (longer.lookup c).map String.toList).getD [c]

end Colloquy.Text.Variant
